/-
Module: LinuxKernel.Lib.Rational
Purpose: `rational_best_approximation` of `lib/rational.c`. Its loop runs through the convergents of the
  given value and returns the last one that fits the limits; a fraction within them is closer only if that
  one fits too often for the next partial quotient.
Trusted boundary: human-reviewed spec
Main exports: rationalBestApproximation, convergent, IsBest, rationalBestApproximation_best_iff
-/
import Mathlib

namespace LinuxKernel.Lib.Rational

/-- The arguments of `rational_best_approximation`: of type `unsigned long`, with a denominator and limits
of at least 1. -/
structure Args (bits : Nat) where
  (givenNumerator givenDenominator maxNumerator maxDenominator : Nat)
  numerator_lt : givenNumerator < 2 ^ bits
  denominator_lt : givenDenominator < 2 ^ bits
  positive : 1 ≤ givenDenominator
  limits : 1 ≤ maxNumerator ∧ 1 ≤ maxDenominator

/-- The variables of `rational_best_approximation`. -/
structure Locals where
  (n d n0 d0 n1 d1 : Nat)
deriving Repr

variable {bits : Nat} (x : Args bits)

/-- `(n1 > max_numerator) || (d1 > max_denominator)`. -/
def Exceeds (s : Locals) : Prop := s.n1 > x.maxNumerator ∨ s.d1 > x.maxDenominator
deriving Decidable

/-- The loop up to its `break`. -/
def loop (s : Locals) : Locals :=
  if Exceeds x s then s
  else if s.d = 0 then s
  else
    let a := s.n / s.d
    loop ⟨s.d, s.n % s.d, s.n1, s.d1, (s.n0 + a * s.n1) % 2 ^ bits, (s.d0 + a * s.d1) % 2 ^ bits⟩
termination_by s.d
decreasing_by exact Nat.mod_lt _ (by omega)

/-- The variables at the `break`. -/
def atBreak : Locals := loop x ⟨x.givenNumerator, x.givenDenominator, 0, 1, 1, 0⟩

/-- `rational_best_approximation`. -/
def rationalBestApproximation : Nat × Nat :=
  let s := atBreak x
  if Exceeds x s then (s.n0, s.d0) else (s.n1, s.d1)

/-- A fraction within the limits. -/
structure Within (n d : Nat) : Prop where
  numerator : n ≤ x.maxNumerator
  positive : 1 ≤ d
  denominator : d ≤ x.maxDenominator

/-- How far a fraction is from the given one. -/
def distance (n d : Nat) : ℚ := |(n : ℚ) / d - x.givenNumerator / x.givenDenominator|

/-- A fraction within the limits that no other one is closer than. -/
def IsBest (best : Nat × Nat) : Prop :=
  Within x best.1 best.2 ∧ ∀ n d, Within x n d → distance x best.1 best.2 ≤ distance x n d

/-! ### Continued fractions -/

/-- The partial quotients of the continued fraction of `n / d`. -/
def quotients (n d : Nat) : List Nat :=
  if d = 0 then [] else n / d :: quotients d (n % d)
termination_by d
decreasing_by exact Nat.mod_lt _ (by omega)

/-- The numerator and the denominator of `[a; b, ..]`, which is `a + 1 / [b; ..]`, with `last` behind the
quotients. -/
def fraction (last : Nat × Nat) : List Nat → Nat × Nat
  | [] => last
  | a :: rest => (a * (fraction last rest).1 + (fraction last rest).2, (fraction last rest).1)

def Args.quotients : List Nat := Rational.quotients x.givenNumerator x.givenDenominator

/-- The convergent of the given value by its first `j` partial quotients; without any it is `1 / 0`. -/
def convergent (j : Nat) : Nat × Nat := fraction (1, 0) (x.quotients.take j)

/-- The continued fraction of the quotients from the `j`-th on. -/
def completeQuotient (j : Nat) : Nat × Nat := fraction (1, 0) (x.quotients.drop j)

def Fits (c : Nat × Nat) : Prop := c.1 ≤ x.maxNumerator ∧ c.2 ≤ x.maxDenominator

/-- The limits are met by the first `j` convergents and that of `j`, and not by the next one if there is
one. -/
structure LastFit (j : Nat) : Prop where
  bound : j ≤ x.quotients.length
  fits : ∀ i ≤ j, Fits x (convergent x i)
  next : j < x.quotients.length → ¬ Fits x (convergent x (j + 1))

/-- The last convergent can be added to the one before it, within the limits, at most about half as often as
the next partial quotient says. -/
def Balanced (j : Nat) : Prop :=
  ∀ s, Fits x ((convergent x (j - 1)).1 + s * (convergent x j).1,
    (convergent x (j - 1)).2 + s * (convergent x j).2) →
    2 * s + ((convergent x (j - 1)).2 : ℚ) / (convergent x j).2 ≤
      (completeQuotient x j).1 / (completeQuotient x j).2

/-- The numerator of the distance. -/
def gap (n d : ℤ) : ℤ := |n * x.givenDenominator - d * x.givenNumerator|

section

variable {last : Nat × Nat} {l : List Nat}

theorem fraction_append (l r : List Nat) : fraction last (l ++ r) = fraction (fraction last r) l := by
  induction l with
  | nil => rfl
  | cons a l ih => simp only [List.cons_append, fraction, ih]

/-- A continued fraction is a sum of multiples of the last two convergents. -/
theorem fraction_eq (n d : Nat) (l : List Nat) : fraction (n, d) l =
    (n * (fraction (1, 0) l).1 + d * (fraction (0, 1) l).1,
      n * (fraction (1, 0) l).2 + d * (fraction (0, 1) l).2) := by
  induction l with
  | nil => simp [fraction]
  | cons a l ih =>
    simp only [fraction, ih]
    congr 1
    ring

theorem fraction_neighbours (l : List Nat) :
    |((fraction (1, 0) l).1 : ℤ) * (fraction (0, 1) l).2 - (fraction (0, 1) l).1 * (fraction (1, 0) l).2| =
      1 := by
  induction l with
  | nil => rfl
  | cons a l ih =>
    rw [← ih, ← abs_neg]
    simp only [fraction]
    push_cast
    ring_nf

theorem fraction_quotients (n d : Nat) : fraction (n.gcd d, 0) (quotients n d) = (n, d) := by
  fun_induction quotients n d with
  | case1 n => rw [Nat.gcd_zero_right]; rfl
  | case2 n d nonzero ih =>
    rw [fraction, Nat.gcd_comm, Nat.gcd_rec, Nat.gcd_comm, ih]
    simp [Nat.div_add_mod']

theorem pos_of_mem_quotients {n d : Nat} (less : d ≤ n) : ∀ a ∈ quotients n d, 1 ≤ a := by
  fun_induction quotients n d with
  | case1 => nofun
  | case2 n d nonzero ih =>
    have positive := Nat.pos_of_ne_zero nonzero
    exact List.forall_mem_cons.mpr ⟨Nat.div_pos less positive, ih (Nat.mod_lt n positive).le⟩

theorem fraction_pos (positive : ∀ a ∈ l, 1 ≤ a) : 1 ≤ (fraction (1, 0) l).1 := by
  induction l with
  | nil => exact le_refl 1
  | cons a l ih =>
    obtain ⟨first, rest⟩ := List.forall_mem_cons.mp positive
    exact le_add_right (Nat.mul_pos first (ih rest))

theorem fraction_snd_pos (nonempty : l ≠ []) (positive : ∀ a ∈ l.tail, 1 ≤ a) :
    1 ≤ (fraction (1, 0) l).2 := by
  cases l with
  | nil => exact absurd rfl nonempty
  | cons a l => exact fraction_pos positive

end

variable {x}

/-- The variables between two turns, in terms of the quotients that were taken. -/
structure Taken (x : Args bits) (s : Locals) (l : List Nat) : Prop where
  split : x.quotients = l ++ quotients s.n s.d
  given : fraction (s.n, s.d) l = (x.givenNumerator, x.givenDenominator)
  older : fraction (0, 1) l = (s.n0, s.d0)
  newer : fraction (1, 0) l = (s.n1, s.d1)
  fits : ∀ i < l.length, Fits x (convergent x i)

theorem loop_spec {s : Locals} (start : ∃ l, Taken x s l) :
    (∃ l, Taken x (loop x s) l) ∧ (Exceeds x (loop x s) ∨ (loop x s).d = 0) := by
  fun_induction loop with
  | case1 s exceeds => exact ⟨start, .inl exceeds⟩
  | case2 s _ zero => exact ⟨start, .inr zero⟩
  | case3 s exceeds nonzero a step =>
    obtain ⟨l, split, given, older, newer, fits⟩ := start
    have quotient : a * s.d + s.n % s.d = s.n := Nat.div_add_mod' s.n s.d
    rw [quotients, if_neg nonzero] at split
    generalize s.n % s.d = r at split quotient step ⊢
    have next := fraction_eq a 1 l
    -- the new convergent times `d` is a part of the given fraction, so it does not wrap
    obtain ⟨num, den⟩ := Prod.mk.inj ((fraction_eq s.n s.d l).symm.trans given)
    simp only [older, newer] at num den
    rw [← quotient] at num den
    have numFits : s.n0 + a * s.n1 < 2 ^ bits := by nlinarith [Nat.pos_of_ne_zero nonzero, x.numerator_lt]
    have denFits : s.d0 + a * s.d1 < 2 ^ bits := by nlinarith [Nat.pos_of_ne_zero nonzero, x.denominator_lt]
    refine step ⟨l ++ [a], by rw [split, List.append_assoc]; rfl, ?_, ?_, ?_, fun i before => ?_⟩
    · rw [fraction_append, fraction, fraction, quotient]
      exact given
    · rw [fraction_append, fraction, fraction, Nat.mul_zero, Nat.zero_add]
      exact newer
    · rw [fraction_append, fraction, fraction, Nat.mul_one, Nat.add_zero, next, older, newer,
        Nat.mod_eq_of_lt numFits, Nat.mod_eq_of_lt denFits]
      simp [Nat.add_comm]
    · rw [List.length_append, List.length_singleton] at before
      rcases Nat.lt_succ_iff_lt_or_eq.mp before with old | rfl
      · exact fits i old
      · rw [convergent, split, List.take_left, newer]
        simpa [Exceeds, Fits] using exceeds

/-- The loop returns the last convergent within the limits. -/
theorem result_spec (x : Args bits) : ∃ j, LastFit x j ∧ rationalBestApproximation x = convergent x j := by
  obtain ⟨⟨l, taken⟩, left⟩ : (∃ l, Taken x (atBreak x) l) ∧ (Exceeds x (atBreak x) ∨ (atBreak x).d = 0) :=
    loop_spec ⟨[], rfl, rfl, rfl, rfl, nofun⟩
  rw [rationalBestApproximation]
  generalize atBreak x = s at taken left
  obtain ⟨split, -, older, newer, fits⟩ := taken
  have here : convergent x l.length = (s.n1, s.d1) := by rw [convergent, split, List.take_left, newer]
  split_ifs with exceeds
  · rcases List.eq_nil_or_concat l with rfl | ⟨l, a, rfl⟩
    · obtain ⟨one, zero⟩ := Prod.mk.inj newer
      have := x.limits
      rw [Exceeds] at exceeds
      omega
    rw [List.concat_eq_append] at *
    rw [List.length_append, List.length_singleton] at fits here
    refine ⟨l.length, ⟨by simp [split], fun i le => fits i (by omega), fun _ fit => ?_⟩, ?_⟩
    · rw [here] at fit
      simp only [Exceeds, Fits] at exceeds fit
      omega
    · rw [fraction_append, fraction, fraction, Nat.mul_zero, Nat.zero_add] at older
      rw [convergent, split, List.append_assoc, List.take_left]
      exact older.symm
  · have done := left.resolve_left exceeds
    rw [quotients, if_pos done, List.append_nil] at split
    refine ⟨l.length, ⟨by rw [split], fun i le => ?_, fun less => by rw [split] at less; omega⟩, here.symm⟩
    rcases Nat.lt_or_eq_of_le le with less | rfl
    · exact fits i less
    · rw [here]
      simpa [Exceeds, Fits] using exceeds

theorem distance_le_iff {n d n' d' : Nat} (pos : 1 ≤ d) (pos' : 1 ≤ d') :
    distance x n d ≤ distance x n' d' ↔ gap x n d * d' ≤ gap x n' d' * d := by
  have given : (0 : ℚ) < x.givenDenominator := by exact_mod_cast x.positive
  have scaled {n d : Nat} (pos : 1 ≤ d) : distance x n d = gap x n d / d / x.givenDenominator := by
    have pos : (0 : ℚ) < d := by exact_mod_cast pos
    rw [distance, gap, div_sub_div _ _ pos.ne' given.ne', abs_div, abs_of_pos (mul_pos pos given), div_div]
    push_cast
    rfl
  rw [scaled pos, scaled pos', div_le_div_iff_of_pos_right given,
    div_le_div_iff₀ (by exact_mod_cast pos) (by exact_mod_cast pos')]
  exact_mod_cast Iff.rfl

/-- Two neighbours `h / k` and `h' / k'` and the complete quotient `P / Q` between which the given value
is. -/
structure Split (x : Args bits) (h k h' k' P Q : Nat) : Prop where
  numerator : ∃ g : Nat, 1 ≤ g ∧ g * (P * h + Q * h') = x.givenNumerator ∧
    g * (P * k + Q * k') = x.givenDenominator
  neighbours : |(h : ℤ) * k' - h' * k| = 1
  positive : 1 ≤ k ∧ 1 ≤ P

variable {h k h' k' P Q : Nat}

/-- The distance of a sum of multiples of the two neighbours. -/
theorem Split.gap_eq (split : Split x h k h' k' P Q) : ∃ g : ℤ, 0 < g ∧
    ∀ u v : ℤ, gap x (u * h' + v * h) (u * k' + v * k) = g * |u * P - v * Q| := by
  obtain ⟨g, positive, num, den⟩ := split.numerator
  refine ⟨g, by exact_mod_cast positive, fun u v => ?_⟩
  rw [gap, ← num, ← den, ← one_mul |u * P - v * Q|, ← split.neighbours, ← abs_mul,
    ← Nat.abs_cast g, ← abs_mul,
    ← abs_neg]
  push_cast
  ring_nf

theorem Split.best_iff (split : Split x h k h' k' P Q) (fits : Fits x (h, k)) (older : Fits x (h', k')) :
    IsBest x (h, k) ↔ ∀ s, Fits x (h' + s * h, k' + s * k) → (2 * s * k + k') * Q ≤ P * k := by
  obtain ⟨g, positive, error⟩ := split.gap_eq
  obtain ⟨kPos, PPos⟩ := split.positive
  have first := error 0 1
  simp only [zero_mul, one_mul, zero_add, zero_sub, abs_neg, Nat.abs_cast] at first
  have closer {p q : Nat} {u v : ℤ} (pEq : (p : ℤ) = u * h' + v * h) (qEq : (q : ℤ) = u * k' + v * k)
    (pos : 1 ≤ q) :
      distance x h k ≤ distance x p q ↔ Q * (u * k' + v * k) ≤ |u * P - v * Q| * k := by
    rw [distance_le_iff kPos pos, first, pEq, qEq, error, mul_assoc, mul_assoc]
    exact mul_le_mul_iff_right₀ positive
  constructor
  · intro best s fit
    rcases Nat.eq_zero_or_pos (k' + s * k) with zero | pos
    · have : k' = 0 ∧ s * k = 0 := by omega
      rw [mul_assoc, this.1, this.2]
      simp
    have bound := (@closer (h' + s * h) (k' + s * k) 1 s (by push_cast; ring) (by push_cast; ring) pos).mp
      (best.2 _ _ ⟨fit.1, pos, fit.2⟩)
    rw [one_mul, one_mul] at bound
    zify
    rcases abs_cases ((P : ℤ) - s * Q) with ⟨same, -⟩ | ⟨same, -⟩
    · rw [same] at bound
      nlinarith
    · rw [same] at bound
      have : (0 : ℤ) < P * k := by exact_mod_cast Nat.mul_pos PPos kPos
      nlinarith [(by positivity : (0 : ℤ) ≤ Q * k')]
  · intro balanced
    refine ⟨⟨fits.1, kPos, fits.2⟩, fun p q within => ?_⟩
    obtain ⟨σ, det, square⟩ : ∃ σ : ℤ, (h : ℤ) * k' - h' * k = σ ∧ σ * σ = 1 := by
      refine ⟨_, rfl, ?_⟩
      rw [← abs_mul_abs_self, split.neighbours]
      rfl
    -- `p / q` in the basis of the two neighbours
    obtain ⟨u, hu⟩ : ∃ u, u = σ * (q * h - p * k) := ⟨_, rfl⟩
    obtain ⟨v, hv⟩ : ∃ v, v = σ * (p * k' - q * h') := ⟨_, rfl⟩
    have pEq : (p : ℤ) = u * h' + v * h := by subst hu hv; linear_combination (-p * σ) * det - p * square
    have qEq : (q : ℤ) = u * k' + v * k := by subst hu hv; linear_combination (-q * σ) * det - q * square
    rw [closer pEq qEq within.positive]
    rcases le_or_gt u 0 with hu | hu
    · have far : v * Q - u * P ≤ |u * P - v * Q| := le_of_eq_of_le (by ring) (neg_le_abs _)
      have near : u * (Q * k' + P * k) ≤ 0 := mul_nonpos_of_nonpos_of_nonneg hu (by positivity)
      calc Q * (u * k' + v * k) ≤ (v * Q - u * P) * k := by linarith
        _ ≤ _ := by gcongr
    have far : u * P - v * Q ≤ |u * P - v * Q| := le_abs_self _
    suffices Q * (u * k' + v * k) ≤ (u * P - v * Q) * k from le_trans this (by gcongr)
    rcases le_or_gt v 0 with hv | hv
    · have bound :
          (k' : ℤ) * Q ≤ P * k := by exact_mod_cast (by simpa using balanced 0 (by simpa using older))
      nlinarith [mul_nonneg (neg_nonneg.mpr hv) (by positivity : (0 : ℤ) ≤ 2 * Q * k)]
    · lift v to ℕ using hv.le
      have grows (y : ℕ) : (y : ℤ) ≤ u * y := le_mul_of_one_le_left y.cast_nonneg hu
      have bound := balanced v
        ⟨by zify; linarith [within.numerator, grows h'], by zify; linarith [within.denominator, grows k']⟩
      zify at bound
      nlinarith [mul_nonneg (sub_nonneg.mpr hu) (by positivity : (0 : ℤ) ≤ 2 * v * Q * k)]

theorem quotients_pos : ∀ a ∈ x.quotients.tail, 1 ≤ a := by
  rw [Args.quotients, quotients, if_neg (Nat.ne_of_gt x.positive)]
  exact pos_of_mem_quotients (Nat.mod_lt _ x.positive).le

/-- The given value between two convergents. -/
theorem split_at {j : Nat} (bound : j + 1 ≤ x.quotients.length) :
    Split x (convergent x (j + 1)).1 (convergent x (j + 1)).2 (convergent x j).1 (convergent x j).2
      (completeQuotient x (j + 1)).1 (completeQuotient x (j + 1)).2 := by
  have given := fraction_quotients x.givenNumerator x.givenDenominator
  have positive := Nat.gcd_pos_of_pos_right x.givenNumerator x.positive
  change fraction _ x.quotients = _ at given
  generalize Nat.gcd x.givenNumerator x.givenDenominator = g at given positive
  have older : fraction (0, 1) (x.quotients.take (j + 1)) = convergent x j := by
    rw [List.take_succ_eq_append_getElem (by omega), fraction_append, fraction, fraction, Nat.mul_zero]
    rfl
  rw [← List.take_append_drop (j + 1) x.quotients, fraction_append, fraction_eq g 0, fraction_eq,
    older] at given
  obtain ⟨num, den⟩ := Prod.mk.inj given
  refine ⟨⟨g, positive, ?_, ?_⟩, ?_, fraction_snd_pos ?_ fun a mem => quotients_pos (x := x) a ?_,
    fraction_pos fun a mem => quotients_pos (x := x) a ?_⟩
  · rw [← num, convergent, completeQuotient]
    ring
  · rw [← den, convergent, completeQuotient]
    ring
  · rw [← older]
    exact fraction_neighbours _
  · simpa using List.ne_nil_of_length_pos (Nat.lt_of_lt_of_le j.succ_pos bound)
  · rw [← List.drop_one, List.drop_take, List.drop_one] at mem
    exact List.mem_of_mem_take mem
  · rw [← List.drop_tail] at mem
    exact List.mem_of_mem_drop mem

/-- The result is the best fraction exactly if the whole part of the given one fits the limits, and the last
convergent that does is the given fraction or cannot be added too often. -/
theorem rationalBestApproximation_best_iff (bits : Nat) (x : Args bits) :
    ∃ j, LastFit x j ∧
      (IsBest x (rationalBestApproximation x) ↔ 1 ≤ j ∧ (j < x.quotients.length → Balanced x j)) := by
  obtain ⟨j, last, result⟩ := result_spec x
  refine ⟨j, last, ?_⟩
  rw [result]
  cases j with
  | zero =>
    exact iff_of_false (fun best => Nat.not_succ_le_zero 0 best.1.positive) fun closer => nomatch closer.1
  | succ j =>
    have split := split_at last.bound
    rw [split.best_iff (last.fits _ le_rfl) (last.fits j j.le_succ), and_iff_right (Nat.le_add_left 1 j)]
    rcases Nat.lt_or_eq_of_le last.bound with less | whole
    · have kPos : (0 : ℚ) < (convergent x (j + 1)).2 := by exact_mod_cast split.positive.1
      have QPos : (0 : ℚ) < (completeQuotient x (j + 1)).2 := by
        refine Nat.cast_pos.mpr (fraction_snd_pos (by simpa using less) fun a mem =>
          quotients_pos (x := x) a ?_)
        rw [List.tail_drop, ← List.drop_tail] at mem
        exact List.mem_of_mem_drop mem
      rw [imp_iff_right less, Balanced]
      refine forall_congr' fun s => imp_congr_right fun _ => ?_
      rw [← mul_div_cancel_right₀ (2 * s : ℚ) kPos.ne', ← add_div, div_le_div_iff₀ kPos QPos]
      norm_cast
    · exact iff_of_true (fun s _ => by simp [completeQuotient, whole, fraction]) fun less =>
        absurd whole less.ne

/-- 10 is returned as 1 / 0 if the numerator must not exceed 5. -/
theorem rationalBestApproximation_not_best :
    ∃ x : Args 64, x.givenNumerator = 10 ∧ x.givenDenominator = 1 ∧ x.maxNumerator = 5 ∧
      x.maxDenominator = 5 ∧
      rationalBestApproximation x = (1, 0) ∧ ¬ IsBest x (1, 0) :=
  ⟨⟨10, 1, 5, 5, by decide, by decide, by decide, by decide⟩, rfl, rfl, rfl, rfl,
    by simp [rationalBestApproximation, atBreak, loop, Exceeds],
    fun best => absurd best.1.positive (by decide)⟩

/-- Best or not, the result is the last convergent of the given value that fits the limits, and in lowest
terms. -/
theorem rationalBestApproximation_reduced (bits : Nat) (x : Args bits) :
    ∃ j, LastFit x j ∧ rationalBestApproximation x = convergent x j ∧
      Nat.Coprime (rationalBestApproximation x).1 (rationalBestApproximation x).2 := by
  obtain ⟨j, last, result⟩ := result_spec x
  refine ⟨j, last, result, ?_⟩
  rw [result, ← Nat.isCoprime_iff_coprime, convergent]
  have neighbours := fraction_neighbours (x.quotients.take j)
  rcases (abs_eq one_pos.le).mp neighbours with det | det
  · exact ⟨(fraction (0, 1) (x.quotients.take j)).2, -(fraction (0, 1) (x.quotients.take j)).1, by linarith⟩
  · exact ⟨-(fraction (0, 1) (x.quotients.take j)).2, (fraction (0, 1) (x.quotients.take j)).1, by linarith⟩

end LinuxKernel.Lib.Rational
