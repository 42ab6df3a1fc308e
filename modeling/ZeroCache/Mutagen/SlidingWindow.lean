import Mathlib.Algebra.Order.Field.Rat
import Mathlib.Data.List.Induction
import Mathlib.Tactic.Linarith
import Mathlib.Tactic.NormNum

/-!
# Limiting mutations by a sliding window

Calls are counted in aligned windows of one size (`sliding_window_limiter.rs`). The limiter holds two of them
in a row; when time has moved past them they are rotated, or created anew after a long pause. A call that comes
exactly two sizes after the start of the later window is rotated only once: it is counted in a window that has
ended, and the window it belongs to is given away once more.
-/

namespace ZeroCache.Mutagen.SlidingWindow

open List Int

/-- A window with the calls counted in it. -/
structure Window where
  start : ℤ
  count : ℕ

variable (w : ℤ) (maxMutations : ℕ)

/-- The window that a time is in, and the next one. -/
def newWindows (now : ℤ) : Window × Window :=
  (⟨now - now % w, 0⟩, ⟨now - now % w + w, 0⟩)

/-- The calls of the size before a time, those of the prior window by the part of it that is covered. -/
def totalCalls (prior next : Window) (now : ℤ) : ℚ :=
  let fraction : ℚ := if now < prior.start + w then 1
    else max 0 (min 1 ((prior.start + (w - 1) - (now - w) : ℤ) / w))
  prior.count * fraction + next.count

/-- The windows at a time: those held, new ones or the later one with its successor. -/
def windowsAt (windows : Option (Window × Window)) (now : ℤ) : Window × Window :=
  let held := windows.getD (newWindows w now)
  let held := if held.2.start + w < now - w then newWindows w now else held
  if held.2.start ≤ now - w then (held.2, ⟨held.2.start + w, 0⟩) else held

/-- Count a call in the window it comes in. -/
def book (windows : Window × Window) (now : ℤ) : Window × Window :=
  if now < windows.2.start then (⟨windows.1.start, windows.1.count + 1⟩, windows.2)
  else (windows.1, ⟨windows.2.start, windows.2.count + 1⟩)

/-- Whether a call is allowed, and the windows after it (`can_do`). -/
def canDo (windows : Option (Window × Window)) (now : ℤ) : Bool × Window × Window :=
  let windows := windowsAt w windows now
  if totalCalls w windows.1 windows.2 now < maxMutations then (true, book windows now) else (false, windows)

/-- The windows after a call, and the calls allowed so far. -/
def afterCall (state : Option (Window × Window) × List ℤ) (now : ℤ) : Option (Window × Window) × List ℤ :=
  let (allowed, windows) := canDo w maxMutations state.1 now
  (some windows, if allowed then state.2 ++ [now] else state.2)

/-- A new limiter that is called at some times. -/
def run (times : List ℤ) : Option (Window × Window) × List ℤ := times.foldl (afterCall w maxMutations) (none, [])

/-- The allowed calls in the window from a time on. -/
def callsIn (allowed : List ℤ) (start : ℤ) : ℕ := allowed.countP (fun time => start ≤ time ∧ time < start + w)

/-- The windows from a time on, with the allowed calls in each. -/
def counting (allowed : List ℤ) (start : ℤ) : Window × Window :=
  (⟨start, callsIn w allowed start⟩, ⟨start + w, callsIn w allowed (start + w)⟩)

/-- After a call, the limiter holds two aligned windows in a row and counts the allowed calls in each; no aligned
window has more allowed calls than the limit. -/
structure Exact (now : ℤ) (windows : Window × Window) (allowed : List ℤ) : Prop where
  aligned : w ∣ windows.1.start
  counts : windows = counting w allowed windows.1.start
  limit : ∀ start, w ∣ start → callsIn w allowed start ≤ maxMutations
  reached : windows.1.start ≤ now
  past : ∀ time ∈ allowed, time ≤ now ∧ time < windows.1.start + 2 * w

variable {w maxMutations} {windows : Window × Window} {allowed : List ℤ} {now last start start' : ℤ}

theorem callsIn_of_lt (h : ∀ time ∈ allowed, time < start) : callsIn w allowed start = 0 := by
  rw [callsIn, countP_eq_zero]
  intro time htime
  have := h time htime
  simp only [decide_eq_true_eq]
  omega

theorem callsIn_append (allowed : List ℤ) (now start : ℤ) :
    callsIn w (allowed ++ [now]) start = callsIn w allowed start + if start ≤ now ∧ now < start + w then 1 else 0 := by
  simp [callsIn, countP_append, countP_singleton]

/-- A time is in one aligned window. -/
theorem start_unique (h : w ∣ start) (h' : w ∣ start') (hin : start ≤ now ∧ now < start + w)
    (hin' : start' ≤ now ∧ now < start' + w) : start = start' := by
  have := eq_zero_of_abs_lt_dvd (Int.dvd_sub h h') (abs_lt.mpr ⟨by omega, by omega⟩)
  omega

/-- The window of an allowed call was not full. -/
theorem callsIn_lt (haligned : w ∣ start) (hinside : start ≤ now ∧ now < start + 2 * w)
    (hbelow : totalCalls w (counting w allowed start).1 (counting w allowed start).2 now < maxMutations)
    (haligned' : w ∣ start') (hin : start' ≤ now ∧ now < start' + w) : callsIn w allowed start' < maxMutations := by
  rw [← @Nat.cast_lt ℚ]
  by_cases hprior : now < (counting w allowed start).1.start + w
  · simp only [totalCalls, if_pos hprior, mul_one] at hbelow
    rw [start_unique haligned' haligned hin ⟨hinside.1, hprior⟩]
    exact lt_of_le_of_lt (le_add_of_nonneg_right (Nat.cast_nonneg _)) hbelow
  · simp only [totalCalls, if_neg hprior] at hbelow
    simp only [counting] at hprior
    rw [start_unique haligned' (Int.dvd_add haligned (dvd_refl w)) hin ⟨by omega, by omega⟩]
    refine lt_of_le_of_lt (le_add_of_nonneg_left ?_) hbelow
    exact mul_nonneg (Nat.cast_nonneg _) (le_max_left _ _)

/-- A call is counted in its window. -/
theorem book_counting (hinside : start ≤ now ∧ now < start + 2 * w) :
    book (counting w allowed start) now = counting w (allowed ++ [now]) start := by
  unfold book
  split
  · next hprior =>
    simp only [counting, callsIn_append] at hprior ⊢
    rw [if_pos ⟨hinside.1, hprior⟩, if_neg (by omega), add_zero]
  · next hprior =>
    simp only [counting, callsIn_append] at hprior ⊢
    rw [if_neg (by omega), if_pos (by omega), add_zero]

section

variable (hw : 0 < w)

include hw

/-- The windows move on to a time, unless it is three sizes after the prior window. -/
theorem windowsAt_counting (haligned : w ∣ start) (hpast : ∀ time ∈ allowed, time < start + 2 * w) (hle : start ≤ now)
    (hgap : now ≠ start + 3 * w) : ∃ start', windowsAt w (some (counting w allowed start)) now = counting w allowed start' ∧
      w ∣ start' ∧ start' ≤ now ∧ now < start' + 2 * w := by
  have hnonneg := emod_nonneg now hw.ne'
  have hsmall := emod_lt_of_pos now hw
  by_cases hfresh : (counting w allowed start).2.start + w < now - w
  · have hnew : ¬ (newWindows w now).2.start ≤ now - w := by
      simp only [newWindows]
      omega
    simp only [windowsAt, Option.getD_some, if_pos hfresh, if_neg hnew]
    simp only [counting] at hfresh
    refine ⟨now - now % w, ?_, dvd_self_sub_emod, by omega, by omega⟩
    have hbefore : ∀ time ∈ allowed, time < now - now % w := by
      intro time htime
      have := hpast time htime
      omega
    rw [counting, callsIn_of_lt hbefore, callsIn_of_lt (fun time htime => (hbefore time htime).trans (by omega))]
    rfl
  · by_cases hrotate : (counting w allowed start).2.start ≤ now - w
    · simp only [windowsAt, Option.getD_some, if_neg hfresh, if_pos hrotate]
      simp only [counting] at hfresh hrotate ⊢
      have hafter : callsIn w allowed (start + w + w) = 0 := by
        refine callsIn_of_lt (fun time htime => ?_)
        have := hpast time htime
        omega
      exact ⟨start + w, by rw [hafter], Int.dvd_add haligned (dvd_refl _), by omega, by omega⟩
    · simp only [windowsAt, Option.getD_some, if_neg hfresh, if_neg hrotate]
      simp only [counting] at hrotate
      exact ⟨start, rfl, haligned, hle, by omega⟩

/-- A call keeps the counts exact, unless it comes two sizes after the start of the later window. -/
theorem canDo_exact (h : Exact w maxMutations last windows allowed) (hle : last ≤ now)
    (hgap : now ≠ windows.2.start + 2 * w) : Exact w maxMutations now (canDo w maxMutations (some windows) now).2
      (if (canDo w maxMutations (some windows) now).1 then allowed ++ [now] else allowed) := by
  rw [h.counts] at hgap ⊢
  simp only [counting] at hgap
  obtain ⟨start, hat, haligned, hinside⟩ := windowsAt_counting hw h.aligned (fun time htime => (h.past time htime).2)
    (h.reached.trans hle) (by omega)
  have hpast : ∀ time ∈ allowed, time ≤ now := fun time htime => (h.past time htime).1.trans hle
  by_cases hbelow : totalCalls w (counting w allowed start).1 (counting w allowed start).2 now < maxMutations
  · simp only [canDo, hat, if_pos hbelow, if_true, book_counting hinside]
    have hall : ∀ time ∈ allowed ++ [now], time ≤ now := by simpa [or_imp, forall_and] using hpast
    refine ⟨haligned, rfl, fun start' haligned' => ?_, hinside.1,
      fun time htime => ⟨hall time htime, (hall time htime).trans_lt hinside.2⟩⟩
    rw [callsIn_append]
    split
    · next hin => exact callsIn_lt haligned hinside hbelow haligned' hin
    · exact h.limit start' haligned'
  · simp only [canDo, hat, if_neg hbelow, Bool.false_eq_true, if_false]
    exact ⟨haligned, rfl, h.limit, hinside.1, fun time htime =>
      ⟨hpast time htime, (hpast time htime).trans_lt hinside.2⟩⟩

end

end ZeroCache.Mutagen.SlidingWindow
