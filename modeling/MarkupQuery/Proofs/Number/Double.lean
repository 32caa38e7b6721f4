import Mathlib.Algebra.Order.Field.Power
import Mathlib.Algebra.Order.Field.Rat
import Mathlib.Tactic.Linarith
import Mathlib.Tactic.NormNum
import Mathlib.Tactic.Ring
import MarkupQuery.Number.Basic
import MarkupQuery.Proofs.Number.Numeral

/-!
# Numerals that are rounded

A numeral can also be read in two steps: its value is rounded to the nearest double, and then the
double is asked which child index it is. Rounding loses digits, but none that matter. Up to `2 ^ 53`
every natural number is a double, and is rounded to itself. As `2 ^ 53` is one, nothing beyond it is
rounded to anything below. So no numeral is taken for a neighbour of the number that it denotes.

## Main definitions

* `Number.IsDouble`, `Number.IsNearest`: the values of doubles, and which are nearest to a number
* `Number.Rounds`: what a natural number may be rounded to
* `Number.nearest`: a natural number rounded to the nearest double
* `Number.read?`: the rounded integer that a text writes

## Main results

* `Number.rounds_nearest`: no double is nearer than the one that is computed
* `Number.index?_of_rounds`: rounding keeps child indices and makes no others
* `Number.bind_index?_read?`: what is read is the same with and without rounding
-/

namespace MarkupQuery

namespace Number

/-! ## Doubles -/

/-- The values of the finite doubles that are not negative: 53 bits, scaled by a power of two that
is in range. -/
def IsDouble (v : ℚ) : Prop :=
  ∃ (significand : Nat) (exponent : Int), significand < 2 ^ 53 ∧ -1074 ≤ exponent ∧ exponent ≤ 971 ∧
    v = significand * 2 ^ exponent

/-- The first power of two beyond all doubles. -/
def limit : Nat := 2 ^ 1024

/-- No double is nearer to a natural number. -/
def IsNearest (n : Nat) (v : ℚ) : Prop := ∀ w, IsDouble w → |v - n| ≤ |w - n|

/-- What a natural number may be rounded to, with a sign: a double, if none is nearer, or the
infinite number, if none is nearer than the limit. -/
inductive Rounds (negative : Bool) (n : Nat) : Number → Prop
  | finite {significand : Nat} {exponent : Int} (hdouble : IsDouble (significand * 2 ^ exponent))
      (hnearest : IsNearest n (significand * 2 ^ exponent)) :
      Rounds negative n (.finite negative significand exponent)
  | infinite (hnearest : IsNearest n limit) : Rounds negative n (.infinite negative)

/-- Up to `2 ^ 53` every natural number is a double. -/
theorem isDouble_natCast {n : Nat} (h : n ≤ 2 ^ 53) : IsDouble n := by
  rcases h.lt_or_eq with hlt | rfl
  · exact ⟨n, 0, hlt, by norm_num, by norm_num, by simp⟩
  · exact ⟨2 ^ 52, 1, by norm_num, by norm_num, by norm_num, by norm_num⟩

theorem IsDouble.lt_limit {v : ℚ} (h : IsDouble v) : v < limit := by
  obtain ⟨s, e, hs, -, he, rfl⟩ := h
  have hs : (s : ℚ) < 2 ^ 53 := by exact_mod_cast hs
  have he : (2 : ℚ) ^ e ≤ 2 ^ (971 : Int) := zpow_le_zpow_right₀ (by norm_num) he
  calc (s : ℚ) * 2 ^ e < 2 ^ 53 * 2 ^ e := by gcongr
    _ ≤ 2 ^ 53 * 2 ^ (971 : Int) := by gcongr
    _ = limit := by
      rw [show (971 : Int) = (971 : Nat) from rfl, zpow_natCast, ← pow_add, limit, Nat.cast_pow]
      rfl

theorem lt_of_pow_lt_limit {k : Nat} (h : 2 ^ k < limit) : k < 1024 := by
  unfold limit at h
  -- The exponent is made a variable, so that the power is not computed.
  generalize 1024 = exponent at h ⊢
  exact (Nat.pow_lt_pow_iff_right Nat.one_lt_two).mp h

/-- Below the limit, a significand of 53 bits that is scaled up is a double. The significand may be
`2 ^ 53` as well, which is half of it with the next exponent. -/
theorem isDouble_mul_pow {m k : Nat} (hm : m ≤ 2 ^ 53) (hk : k = 0 ∨ 2 ^ 52 ≤ m)
    (hlt : m * 2 ^ k < limit) : IsDouble (m * 2 ^ (k : Int)) := by
  rcases hm.lt_or_eq with hlt53 | rfl
  · have hk : k ≤ 971 := by
      rcases hk with rfl | hle
      · exact Nat.zero_le _
      · have hpow : 2 ^ (52 + k) < limit := by
          rw [pow_add]
          exact (Nat.mul_le_mul_right _ hle).trans_lt hlt
        have := lt_of_pow_lt_limit hpow
        omega
    exact ⟨m, k, hlt53, by omega, by omega, rfl⟩
  · rw [← pow_add] at hlt
    have := lt_of_pow_lt_limit hlt
    refine ⟨2 ^ 52, k + 1, by norm_num, by omega, by omega, ?_⟩
    rw [zpow_add₀ (by norm_num)]
    push_cast
    ring

section Spacing

variable {m k r : Nat}

/-- From `2 ^ (52 + k)` on, no double lies strictly between two multiples of `2 ^ k`. -/
theorem IsDouble.le_or_le {v : ℚ} (h : IsDouble v) (hm : 2 ^ 52 ≤ m) :
    v ≤ m * 2 ^ k ∨ (m + 1) * 2 ^ k ≤ v := by
  obtain ⟨s, e, hs, -, -, rfl⟩ := h
  by_cases he : e < k
  · left
    have hs : (s : ℚ) ≤ 2 ^ 53 := by exact_mod_cast hs.le
    have hm : (2 : ℚ) ^ 52 ≤ m := by exact_mod_cast hm
    have he : (2 : ℚ) ^ e ≤ 2 ^ ((k : Int) - 1) := zpow_le_zpow_right₀ (by norm_num) (by omega)
    calc (s : ℚ) * 2 ^ e ≤ 2 ^ 53 * 2 ^ ((k : Int) - 1) := by gcongr
      _ = 2 ^ 52 * 2 ^ k := by rw [zpow_sub₀ (by norm_num), zpow_natCast]; ring
      _ ≤ m * 2 ^ k := by gcongr
  · -- The double is a multiple itself.
    obtain ⟨d, rfl⟩ : ∃ d : Nat, e = k + d := ⟨(e - k).toNat, by omega⟩
    have hmul : (s : ℚ) * 2 ^ ((k : Int) + d) = (s * 2 ^ d : Nat) * 2 ^ k := by
      rw [zpow_add₀ (by norm_num), zpow_natCast, zpow_natCast]
      push_cast
      ring
    rw [hmul]
    rcases Nat.lt_or_ge m (s * 2 ^ d) with hlt | hle
    · right
      gcongr
      exact_mod_cast hlt
    · left
      gcongr

/-- A double is as far from a number as one of the two multiples around it. -/
theorem IsDouble.le_distance {w : ℚ} (h : IsDouble w) (hm : 2 ^ 52 ≤ m) :
    (r : ℚ) ≤ |w - (m * 2 ^ k + r : Nat)| ∨ 2 ^ k - (r : ℚ) ≤ |w - (m * 2 ^ k + r : Nat)| := by
  push_cast
  rcases h.le_or_le (k := k) hm with hle | hle
  · exact Or.inl (le_abs.mpr (Or.inr (by linarith)))
  · exact Or.inr (le_abs.mpr (Or.inl (by linarith)))

/-- The multiple below is nearest to a number that is not beyond the middle. -/
theorem isNearest_below (hm : 2 ^ 52 ≤ m) (hr : 2 * r ≤ 2 ^ k) :
    IsNearest (m * 2 ^ k + r) (m * 2 ^ k) := by
  intro w hw
  have hr : 2 * (r : ℚ) ≤ 2 ^ k := by exact_mod_cast hr
  have hdistance : |(m * 2 ^ k - (m * 2 ^ k + r : Nat) : ℚ)| = r := by
    rw [Nat.cast_add, Nat.cast_mul, Nat.cast_pow, Nat.cast_ofNat, sub_add_cancel_left, abs_neg,
      Nat.abs_cast]
  rw [hdistance]
  rcases hw.le_distance hm with hle | hle
  · exact hle
  · exact le_trans (by linarith) hle

/-- The multiple above is nearest to a number that is not before the middle. -/
theorem isNearest_above (hm : 2 ^ 52 ≤ m) (hr : 2 ^ k ≤ 2 * r) (hlt : r < 2 ^ k) :
    IsNearest (m * 2 ^ k + r) ((m + 1) * 2 ^ k) := by
  intro w hw
  have hr : (2 : ℚ) ^ k ≤ 2 * r := by exact_mod_cast hr
  have hlt : (r : ℚ) < 2 ^ k := by exact_mod_cast hlt
  have hdistance : |((m + 1) * 2 ^ k - (m * 2 ^ k + r : Nat) : ℚ)| = 2 ^ k - r := by
    rw [← abs_of_pos (sub_pos.mpr hlt)]
    push_cast
    ring_nf
  rw [hdistance]
  rcases hw.le_distance hm with hle | hle
  · exact le_trans (by linarith) hle
  · exact hle

end Spacing

/-- If a number from the limit on is nearest, the limit is. -/
theorem IsNearest.limit {n : Nat} {v : ℚ} (h : IsNearest n v) (hv : Number.limit ≤ v) :
    IsNearest n Number.limit := by
  intro w hw
  have hlt := hw.lt_limit
  rcases le_or_gt (Number.limit : ℚ) n with hn | hn
  · rw [abs_of_nonpos (by linarith)]
    exact le_abs.mpr (Or.inr (by linarith))
  · refine le_trans ?_ (h w hw)
    rw [abs_of_pos (by linarith), abs_of_pos (by linarith)]
    linarith

/-! ## Rounding -/

/-- A natural number rounded to a double, with a sign. Of two equally near multiples of the last
place it is the even one, and what is not below the limit is infinite. -/
def nearest (negative : Bool) (n : Nat) : Number :=
  let exponent := n.log2 - 52
  let below := n / 2 ^ exponent
  let rest := n % 2 ^ exponent
  let significand :=
    if 2 * rest < 2 ^ exponent ∨ 2 * rest = 2 ^ exponent ∧ below % 2 = 0 then below else below + 1
  if significand * 2 ^ exponent < limit then .finite negative significand exponent
  else .infinite negative

theorem rounds_of_isNearest (negative : Bool) {n m k : Nat} (hm : m ≤ 2 ^ 53)
    (hk : k = 0 ∨ 2 ^ 52 ≤ m) (hnearest : IsNearest n (m * 2 ^ k)) :
    Rounds negative n
      (if m * 2 ^ k < limit then .finite negative m k else .infinite negative) := by
  split
  · next hlt =>
    refine .finite (isDouble_mul_pow hm hk hlt) ?_
    rwa [zpow_natCast]
  · next hge =>
    refine .infinite (hnearest.limit ?_)
    exact_mod_cast not_lt.mp hge

/-- The 53 bits that are left of a number of as many bits or more. -/
theorem bits_of_le {n : Nat} (h : 2 ^ 53 ≤ n) :
    2 ^ 52 ≤ n / 2 ^ (n.log2 - 52) ∧ n / 2 ^ (n.log2 - 52) < 2 ^ 53 := by
  have hn : n ≠ 0 := by
    rintro rfl
    simp at h
  have hlog := (Nat.le_log2 hn).mpr h
  constructor
  · rw [Nat.le_div_iff_mul_le (Nat.two_pow_pos _), ← pow_add]
    refine le_trans ?_ (Nat.log2_self_le hn)
    exact Nat.pow_le_pow_right (by norm_num) (by omega)
  · rw [Nat.div_lt_iff_lt_mul (Nat.two_pow_pos _), ← pow_add]
    refine Nat.lt_log2_self.trans_le ?_
    exact Nat.pow_le_pow_right (by norm_num) (by omega)

/-- **The double that is computed is a nearest one.** -/
theorem rounds_nearest (negative : Bool) (n : Nat) : Rounds negative n (nearest negative n) := by
  rcases Nat.lt_or_ge n (2 ^ 53) with hsmall | hlarge
  · -- The number is a double, and there is nothing to round.
    have hk : n.log2 - 52 = 0 := by
      by_cases hn : n = 0
      · simp [hn]
      · have := (Nat.log2_lt hn).mpr hsmall
        omega
    have hsame : IsNearest n (n * 2 ^ 0) := fun w _ => by simp
    simpa [nearest, hk, Nat.mod_one] using rounds_of_isNearest negative hsmall.le (Or.inl rfl) hsame
  · have hbits := bits_of_le hlarge
    rw [nearest]
    generalize n.log2 - 52 = k at hbits ⊢
    have hsplit := Nat.div_add_mod' n (2 ^ k)
    have hrest := Nat.mod_lt n (Nat.two_pow_pos k)
    by_cases hhalf : 2 * (n % 2 ^ k) < 2 ^ k ∨ 2 * (n % 2 ^ k) = 2 ^ k ∧ n / 2 ^ k % 2 = 0
    · have hbelow := isNearest_below (k := k) (r := n % 2 ^ k) hbits.1 (by omega)
      rw [hsplit] at hbelow
      simpa only [hhalf, if_true] using
        rounds_of_isNearest negative hbits.2.le (Or.inr hbits.1) hbelow
    · have habove := isNearest_above (k := k) (r := n % 2 ^ k) hbits.1 (by omega) hrest
      rw [hsplit] at habove
      simpa only [hhalf, if_false] using
        rounds_of_isNearest negative hbits.2 (Or.inr (hbits.1.trans (Nat.le_succ _)))
          (by exact_mod_cast habove)

/-! ## Integers -/

/-- The integer that a finite number is has the value of the number. -/
theorem integer?_eq_some_iff {negative : Bool} {significand : Nat} {exponent i : Int} :
    (Number.finite negative significand exponent).integer? = some i ↔
      ∃ m : Nat, (m : ℚ) = significand * 2 ^ exponent ∧ i = if negative then -(m : Int) else m := by
  simp only [integer?, Nat.pow_eq, Option.ite_none_right_eq_some, Option.some.injEq]
  rcases Int.le_total 0 exponent with he | he
  · obtain ⟨k, rfl⟩ := Int.eq_ofNat_of_zero_le he
    have hiff (m : Nat) : (m : ℚ) = significand * 2 ^ (k : Int) ↔ m = significand * 2 ^ k := by
      rw [zpow_natCast]
      exact_mod_cast Iff.rfl
    simp only [hiff, exists_eq_left]
    simp [Nat.mod_one, eq_comm]
  · obtain ⟨k, rfl⟩ := Int.exists_eq_neg_ofNat he
    have hiff (m : Nat) : (m : ℚ) = significand * 2 ^ (-(k : Int)) ↔ significand = m * 2 ^ k := by
      rw [zpow_neg, zpow_natCast, ← div_eq_mul_inv, eq_div_iff (by positivity)]
      exact_mod_cast eq_comm
    simp only [hiff, neg_neg, Int.toNat_natCast, Int.toNat_neg_natCast, pow_zero, mul_one]
    constructor
    · rintro ⟨hmod, rfl⟩
      exact ⟨significand / 2 ^ k, (Nat.div_mul_cancel (Nat.dvd_of_mod_eq_zero hmod)).symm, rfl⟩
    · rintro ⟨m, rfl, rfl⟩
      rw [Nat.mul_mod_left, Nat.mul_div_cancel m (Nat.two_pow_pos k)]
      exact ⟨rfl, rfl⟩

/-- From `2 ^ 53` on, nothing is rounded to anything below. -/
theorem IsNearest.le {n : Nat} {v : ℚ} (h : IsNearest n v) (hn : 2 ^ 53 ≤ n) : 2 ^ 53 ≤ v := by
  have hbound : IsDouble (2 ^ 53 : Nat) := isDouble_natCast le_rfl
  have hn : (2 : ℚ) ^ 53 ≤ n := by exact_mod_cast hn
  have hle := h _ hbound
  rw [Nat.cast_pow, Nat.cast_ofNat, abs_sub_comm (2 ^ 53) (n : ℚ),
    abs_of_nonneg (sub_nonneg.mpr hn), abs_le] at hle
  linarith

/-- A double is nearest to itself, and none else is. -/
theorem IsNearest.eq {n : Nat} {v : ℚ} (h : IsNearest n v) (hn : IsDouble n) : v = n := by
  have hle := h n hn
  rwa [sub_self, abs_zero, abs_nonpos_iff, sub_eq_zero] at hle

/-- **Rounding keeps child indices and makes no others.** -/
theorem index?_of_rounds {negative : Bool} {n : Nat} {x : Number} (h : Rounds negative n x) :
    x.index? = (some (if negative then -(n : Int) else n)).filter Decimal.isIndex := by
  have hindex (m : Nat) : Decimal.isIndex (if negative then -(m : Int) else m) =
      decide (m ≤ 2 ^ 53 - 1) := by
    cases negative <;> simp [Decimal.isIndex, Decimal.indexBound]
  rw [Option.filter_some, hindex]
  by_cases hn : n ≤ 2 ^ 53 - 1
  · have hself : IsDouble n := isDouble_natCast (by omega)
    rw [if_pos (decide_eq_true hn)]
    cases h with
    | finite _ hnearest =>
      rw [index?, Option.filter_eq_some_iff, integer?_eq_some_iff, hindex]
      exact ⟨⟨n, (hnearest.eq hself).symm, rfl⟩, decide_eq_true hn⟩
    | infinite hnearest => exact absurd (hnearest.eq hself) hself.lt_limit.ne'
  · rw [if_neg (by simpa using hn)]
    cases h with
    | finite _ hnearest =>
      rw [index?, Option.filter_eq_none_iff]
      intro i hi
      obtain ⟨m, hm, rfl⟩ := integer?_eq_some_iff.mp hi
      have hle := hnearest.le (by omega)
      rw [← hm] at hle
      have hle : 2 ^ 53 ≤ m := by exact_mod_cast hle
      rw [hindex, decide_eq_true_iff]
      omega
    | infinite _ => rfl

/-! ## Reading -/

/-- The double to which the integer is rounded that a text writes. -/
def read? : Text → Option Number
  | [] => none
  | c :: rest =>
    if c == '-' then (Decimal.readNat? rest).map (nearest true)
    else (Decimal.readNat? (c :: rest)).map (nearest false)

/-- **Reading that rounds gives the same child indices as exact reading.** -/
theorem bind_index?_read? (t : Text) : (read? t).bind index? = Decimal.readIndex? t := by
  have hmap (negative : Bool) (o : Option Nat) : (o.map (nearest negative)).bind index? =
      (o.map fun n : Nat => if negative then -(n : Int) else n).filter Decimal.isIndex := by
    cases o with
    | none => rfl
    | some n =>
      rw [Option.map_some, Option.bind_some, index?_of_rounds (rounds_nearest negative n),
        Option.map_some]
  cases t with
  | nil => rfl
  | cons c rest =>
    by_cases hc : c = CodeUnit.minus
    · subst hc
      rw [Decimal.readIndex?, Decimal.readInt?_minus]
      exact hmap true _
    · have hbeq : (c == '-') = false := beq_eq_false_iff_ne.mpr hc
      rw [Decimal.readIndex?, read?, Decimal.readInt?, hbeq, beq_eq_false_iff_ne.mpr hc]
      exact hmap false _

end Number

end MarkupQuery
