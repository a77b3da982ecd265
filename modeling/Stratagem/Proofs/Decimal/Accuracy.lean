import Mathlib.Algebra.Order.Field.Power
import Mathlib.Algebra.Order.Ring.Pow
import Mathlib.Data.Int.Log
import Mathlib.Data.Rat.Floor
import Mathlib.Tactic.Positivity
import Stratagem.Proofs.Decimal.Nearest

/-!
# How far rounding moves a number

Every positive number between the least double and the halfway point above the greatest one is
rounded to a double (`exists_roundsTo`), and so is every product, quotient and decimal in this range
(`exists_mul`, `exists_div`, `exists_ofScientific`).

One rounding changes a number by at most a factor (`slack`), and `Close` counts the factors: the
counts of what is multiplied or divided add up. In the end they are counted off in units of the last
place (`Close.units`).
-/

namespace Stratagem.Rounding

/-! ## Every number is rounded -/

theorem exists_nearest {r : ℚ} (h : 0 ≤ r) : ∃ n : ℕ, Nearest n r := by
  have low := Nat.floor_le h
  have high := Nat.lt_floor_add_one r
  generalize ⌊r⌋₊ = n at low high
  rcases lt_trichotomy r (n + 1 / 2) with below | tie | above
  · exact ⟨n, .of_lt (by linarith) below⟩
  · by_cases even : n % 2 = 0
    · exact ⟨n, by linarith, by linarith, fun _ => even⟩
    · exact ⟨n + 1, by push_cast; linarith, by push_cast; linarith, fun _ => by omega⟩
  · exact ⟨n + 1, .of_lt (by push_cast; linarith) (by push_cast; linarith)⟩

section

variable {n m : Nat} {e target : Int} {r v : ℚ}

/-- The nearest whole number is what a number with all its bits is rounded to. -/
theorem RoundsTo.of_nearest (h : Nearest n r) (full : -1074 < target → 2 ^ 52 ≤ r) :
    RoundsTo n target (r * 2 ^ target) := by
  have unit := two_zpow_pos target
  have low : n - halfBelow n target ≤ r := by
    unfold halfBelow
    split
    · rename_i power
      have all := full power.2
      rw [power.1]
      push_cast
      linarith
    · exact h.ge
  unfold RoundsTo
  split
  · exact ⟨mul_le_mul_of_nonneg_right low unit.le, mul_le_mul_of_nonneg_right h.le unit.le⟩
  · rename_i odd
    have notPower : ¬ (n = 2 ^ 52 ∧ -1074 < target) := fun power => odd (by rw [power.1]; rfl)
    have half : halfBelow n target = 1 / 2 := if_neg notPower
    rw [half] at low ⊢
    exact ⟨mul_lt_mul_of_pos_right (low.lt_of_ne fun tie => odd (h.even (.inl tie.symm))) unit,
      mul_lt_mul_of_pos_right (h.le.lt_of_ne fun tie => odd (h.even (.inr tie))) unit⟩

/-- A number that is carried into a bit too many is rounded to a power of two. -/
theorem RoundsTo.of_carry (h : Nearest (2 ^ 53) r) (lt : r < 2 ^ 53) (least : -1074 ≤ target) :
    RoundsTo (2 ^ 52) (target + 1) (r * 2 ^ target) := by
  have unit := two_zpow_pos target
  have low := h.ge
  push_cast at low
  have quarter : halfBelow (2 ^ 52) (target + 1) = 1 / 4 := if_pos ⟨rfl, by omega⟩
  unfold RoundsTo
  rw [if_pos (by decide), quarter, zpow_add_one₀ two_ne_zero]
  push_cast
  exact ⟨by nlinarith, by nlinarith⟩

/-- The numbers from here on are not rounded to a finite double. -/
def top : ℚ := (2 ^ 53 - 1 / 2) * 2 ^ (971 : Int)

/-- A number between the least double and the top in steps of its double. There are fewer than
`2 ^ 53` of them, and `2 ^ 52` unless a step is the least double. -/
theorem exists_steps (low : 2 ^ (-1074 : Int) ≤ v) (high : v < top) :
    ∃ (target : Int) (r : ℚ), v = r * 2 ^ target ∧ -1074 ≤ target ∧ target ≤ 971 ∧
      1 ≤ r ∧ r < 2 ^ 53 ∧ (-1074 < target → 2 ^ 52 ≤ r) := by
  have pos : 0 < v := (two_zpow_pos _).trans_le low
  have least := Int.zpow_log_le_self one_lt_two pos
  have most := Int.lt_zpow_succ_log_self one_lt_two v
  generalize Int.log 2 v = k at least most
  push_cast at least most
  obtain ⟨target, ht⟩ : ∃ target, target = max (k - 52) (-1074) := ⟨_, rfl⟩
  obtain ⟨r, rfl⟩ : ∃ r, v = r * 2 ^ target :=
    ⟨v / 2 ^ target, (div_mul_cancel₀ v (two_zpow_pos target).ne').symm⟩
  have unit := two_zpow_pos target
  have lt : r < 2 ^ 53 := by
    refine lt_of_mul_lt_mul_right (most.trans_le ?_) unit.le
    rw [← zpow_natCast, ← zpow_add₀ two_ne_zero]
    exact zpow_le_zpow_right₀ one_le_two (by push_cast; omega)
  have full (above : -1074 < target) : 2 ^ 52 ≤ r := by
    refine le_of_mul_le_mul_right (le_trans (le_of_eq ?_) least) unit
    rw [← zpow_natCast, ← zpow_add₀ two_ne_zero]
    congr 1
    push_cast
    omega
  have one : 1 ≤ r := by
    by_cases above : -1074 < target
    · exact le_trans (by norm_num) (full above)
    · obtain rfl : target = -1074 := by omega
      exact le_of_mul_le_mul_right (by rwa [one_mul]) unit
  have limit : target ≤ 971 := by
    by_contra large
    have power : (2 : ℚ) ^ (972 : Int) ≤ 2 ^ target := zpow_le_zpow_right₀ one_le_two (by omega)
    have beyond : (2 : ℚ) ^ 52 * 2 ^ (972 : Int) ≤ r * 2 ^ target :=
      mul_le_mul (full (by omega)) power (two_zpow_pos _).le (by linarith)
    have half := two_zpow_pos 971
    unfold top at high
    rw [show (972 : Int) = 971 + 1 from rfl, zpow_add_one₀ two_ne_zero] at beyond
    generalize (2 : ℚ) ^ (971 : Int) = t at high beyond half
    linarith
  exact ⟨target, r, rfl, by omega, limit, one, lt, full⟩

/-- A number between the least double and the top is rounded to a double. -/
theorem exists_roundsTo (low : 2 ^ (-1074 : Int) ≤ v) (high : v < top) :
    ∃ m e, Canonical m e ∧ e ≤ 971 ∧ RoundsTo m e v := by
  obtain ⟨target, r, rfl, least, limit, one, lt, full⟩ := exists_steps low high
  obtain ⟨n, nearest⟩ := exists_nearest (show 0 ≤ r by linarith)
  have few := nearest.ge
  have many := nearest.le
  have pos : 0 < n := by
    by_contra none
    obtain rfl : n = 0 := by omega
    push_cast at many
    linarith
  rcases Nat.lt_or_ge n (2 ^ 53) with small | large
  · refine ⟨n, target, ⟨pos, small, least, fun above => ?_⟩, limit, .of_nearest nearest full⟩
    by_contra less
    have less : (n : ℚ) + 1 ≤ 2 ^ 52 := by exact_mod_cast Nat.not_le.1 less
    have := full above
    linarith
  · obtain rfl : n = 2 ^ 53 := by
      refine le_antisymm ?_ large
      by_contra more
      have more : (2 ^ 53 : ℚ) + 1 ≤ n := by exact_mod_cast Nat.not_le.1 more
      linarith
    refine ⟨2 ^ 52, target + 1, ⟨by decide, by decide, by omega, fun _ => le_rfl⟩, ?_,
      .of_carry nearest lt least⟩
    by_contra beyond
    obtain rfl : target = 971 := by omega
    push_cast at few
    exact absurd high (not_lt.2 (mul_le_mul_of_nonneg_right few (two_zpow_pos _).le))

end

/-! ## Doubles and their parts -/

/-- A positive double and its parts. -/
structure Parts (x : Float) (m : Nat) (e : Int) : Prop where
  of : Decimal.Double.of x = .finite false m e
  pos : 0 < m

section

variable {x y : Float} {m m' : Nat} {e e' : Int} {v w : ℚ}

theorem Parts.canonical (h : Parts x m e) : Canonical m e := (Decimal.Double.canonical h.of h.pos).1

theorem Parts.high (h : Parts x m e) : e ≤ 971 := (Decimal.Double.canonical h.of h.pos).2

theorem Parts.unpack (h : Parts x m e) : x.toModel.unpack = .finite .positive m e h.pos :=
  Decimal.Double.unpack_eq h.of h.pos

theorem Parts.isInf (h : Parts x m e) : x.isInf = false := by
  show x.toModel.unpack.isInf = false
  rw [h.unpack]
  rfl

theorem Parts.ofModel_pack {f : Float.Model.UnpackedFloat} (h : Parts x m e)
    (hf : f = .finite .positive m e h.pos) : Float.ofModel (Float.Model.pack f) = x :=
  Decimal.ofModel_pack h.of h.pos hf

/-- A number in the range of the doubles is rounded to one. -/
theorem exists_parts (low : 2 ^ (-1074 : Int) ≤ v) (high : v < top) :
    ∃ x m e, Parts x m e ∧ RoundsTo m e v := by
  obtain ⟨m, e, canonical, limit, rounds⟩ := exists_roundsTo low high
  exact ⟨_, m, e, ⟨Decimal.of_ofModel_pack canonical limit, canonical.pos⟩, rounds⟩

theorem exists_mul (hx : Parts x m e) (hy : Parts y m' e') (all : 2 ^ 52 ≤ m)
    (low : 2 ^ (-1074 : Int) ≤ m * 2 ^ e * (m' * 2 ^ e' : ℚ))
    (high : m * 2 ^ e * (m' * 2 ^ e' : ℚ) < top) :
    ∃ n d, Parts (x * y) n d ∧ RoundsTo n d (m * 2 ^ e * (m' * 2 ^ e')) := by
  obtain ⟨z, n, d, parts, rounds⟩ := exists_parts low high
  have product : x * y = z := by
    refine parts.ofModel_pack ?_
    rw [hx.unpack, hy.unpack]
    exact mul_eq parts.canonical all rounds
  exact ⟨n, d, product ▸ parts, rounds⟩

theorem exists_div (hx : Parts x m e) (hy : Parts y m' e')
    (low : 2 ^ (-1074 : Int) ≤ m * 2 ^ e / (m' * 2 ^ e' : ℚ))
    (high : m * 2 ^ e / (m' * 2 ^ e' : ℚ) < top) :
    ∃ n d, Parts (x / y) n d ∧ RoundsTo n d (m * 2 ^ e / (m' * 2 ^ e')) := by
  obtain ⟨z, n, d, parts, rounds⟩ := exists_parts low high
  have quotient : x / y = z := by
    refine parts.ofModel_pack ?_
    rw [hx.unpack, hy.unpack]
    exact div_eq parts.canonical rounds
  exact ⟨n, d, quotient ▸ parts, rounds⟩

/-- A whole number with a power of ten is rounded to a double with all its bits. -/
theorem exists_ofScientific {digits power : Nat} (pos : 0 < digits) (short : power ≤ 2048)
    (high : (digits * 10 ^ power : ℚ) < top) :
    ∃ m e, Parts (Float.ofScientific digits false power) m e ∧ 2 ^ 52 ≤ m ∧
      RoundsTo m e (digits * 10 ^ power) := by
  have one : (1 : ℚ) ≤ digits * 10 ^ power := by
    exact_mod_cast Nat.mul_pos pos (Nat.pow_pos (by decide))
  have low : (2 : ℚ) ^ (-1074 : Int) ≤ 1 / 2 :=
    (zpow_le_zpow_right₀ one_le_two (show (-1074 : Int) ≤ -1 by decide)).trans (by norm_num)
  obtain ⟨x, m, e, parts, rounds⟩ := exists_parts (low.trans (by linarith)) high
  have same : Float.ofScientific digits false power = x :=
    ofScientific_mul parts.of parts.pos pos short (by exact_mod_cast rounds)
  refine ⟨m, e, same ▸ parts, parts.canonical.full ?_, rounds⟩
  -- The least exponent is that of numbers far below one.
  by_contra least
  obtain rfl : e = -1074 := le_antisymm (not_lt.1 least) parts.canonical.least
  have bits : (m : ℚ) + 1 ≤ 2 ^ 53 := by exact_mod_cast parts.canonical.lt
  have small : (2 : ℚ) ^ (-1074 : Int) ≤ 2 ^ (-54 : Int) :=
    zpow_le_zpow_right₀ one_le_two (by decide)
  have := rounds.le.trans (mul_le_mul_of_nonneg_left small (by positivity))
  norm_num at this
  linarith

end

/-! ## Counting factors -/

/-- What one rounding can change a number by, as a factor. -/
def slack : ℚ := 2 ^ 53 / (2 ^ 53 - 1)

theorem one_le_slack : 1 ≤ slack := by norm_num [slack]

theorem slack_pow_pos (k : Nat) : 0 < slack ^ k := pow_pos (by norm_num [slack]) k

/-- The numbers differ by at most `k` such factors. -/
structure Close (k : Nat) (v w : ℚ) : Prop where
  le : v ≤ slack ^ k * w
  ge : w ≤ slack ^ k * v

namespace Close

variable {j k : Nat} {a b c v w : ℚ}

theorem symm (h : Close k v w) : Close k w v := ⟨h.ge, h.le⟩

theorem trans (h : Close j a b) (h' : Close k b c) : Close (j + k) a c := by
  constructor
  · rw [pow_add, mul_assoc]
    exact h.le.trans (mul_le_mul_of_nonneg_left h'.le (slack_pow_pos j).le)
  · rw [pow_add, mul_comm (slack ^ j), mul_assoc]
    exact h'.ge.trans (mul_le_mul_of_nonneg_left h.ge (slack_pow_pos k).le)

theorem mono (h : Close j v w) (le : j ≤ k) (hv : 0 ≤ v) (hw : 0 ≤ w) : Close k v w := by
  have power : slack ^ j ≤ slack ^ k := pow_le_pow_right₀ one_le_slack le
  exact ⟨h.le.trans (mul_le_mul_of_nonneg_right power hw),
    h.ge.trans (mul_le_mul_of_nonneg_right power hv)⟩

theorem mul (h : Close j a b) (h' : Close k v w) (ha : 0 ≤ a) (hb : 0 ≤ b) (hv : 0 ≤ v)
    (hw : 0 ≤ w) : Close (j + k) (a * v) (b * w) := by
  constructor
  · calc a * v ≤ slack ^ j * b * (slack ^ k * w) :=
          mul_le_mul h.le h'.le hv (mul_nonneg (slack_pow_pos j).le hb)
      _ = slack ^ (j + k) * (b * w) := by rw [pow_add]; ring
  · calc b * w ≤ slack ^ j * a * (slack ^ k * v) :=
          mul_le_mul h.ge h'.ge hw (mul_nonneg (slack_pow_pos j).le ha)
      _ = slack ^ (j + k) * (a * v) := by rw [pow_add]; ring

theorem inv (h : Close k v w) (hv : 0 < v) (hw : 0 < w) : Close k v⁻¹ w⁻¹ := by
  have pos := slack_pow_pos k
  constructor
  · rw [inv_le_iff_one_le_mul₀ hv]
    have := h.ge
    field_simp
    linarith
  · rw [inv_le_iff_one_le_mul₀ hw]
    have := h.le
    field_simp
    linarith

theorem div (h : Close j a b) (h' : Close k v w) (ha : 0 ≤ a) (hb : 0 ≤ b) (hv : 0 < v)
    (hw : 0 < w) : Close (j + k) (a / v) (b / w) := by
  rw [div_eq_mul_inv, div_eq_mul_inv]
  exact h.mul (h'.inv hv hw) ha hb (inv_pos.2 hv).le (inv_pos.2 hw).le

end Close

section

variable {m m' : Nat} {e e' : Int} {k : Nat} {v w : ℚ}

/-- A number is as close to the double that it is rounded to as the double has bits. -/
theorem RoundsTo.close (h : RoundsTo m e v) (bits : 2 ^ 53 + k ≤ 2 * k * m + 1) :
    Close k v (m * 2 ^ e) := by
  have unit := two_zpow_pos e
  have half := halfBelow_le m e
  have many : (2 : ℚ) ^ 53 + k ≤ 2 * k * m + 1 := by exact_mod_cast bits
  have least : 1 + k * (1 / (2 ^ 53 - 1) : ℚ) ≤ slack ^ k := by
    have := one_add_mul_le_pow (a := (1 / (2 ^ 53 - 1) : ℚ)) (by norm_num) k
    exact this.trans (le_of_eq (congrArg (· ^ k) (by norm_num [slack])))
  have enough : m ≤ slack ^ k * (m - 1 / 2 : ℚ) := by
    have pos : (0 : ℚ) ≤ m - 1 / 2 := by
      by_contra none
      have none : (m : ℚ) < 1 := by linarith
      have none : m = 0 := by
        have : m < 1 := by exact_mod_cast none
        omega
      rw [none] at many
      push_cast at many
      have : (0 : ℚ) ≤ k := k.cast_nonneg
      linarith
    refine le_trans ?_ (mul_le_mul_of_nonneg_right least pos)
    norm_num
    linarith
  have more : m + 1 / 2 ≤ slack ^ k * (m : ℚ) := by
    refine le_trans ?_ (mul_le_mul_of_nonneg_right least m.cast_nonneg)
    have : (0 : ℚ) ≤ k := k.cast_nonneg
    norm_num
    linarith
  constructor
  · refine h.le.trans ?_
    rw [← mul_assoc]
    exact mul_le_mul_of_nonneg_right more unit.le
  · calc m * 2 ^ e ≤ slack ^ k * (m - 1 / 2) * 2 ^ e := mul_le_mul_of_nonneg_right enough unit.le
      _ ≤ slack ^ k * v := by
        rw [mul_assoc]
        refine mul_le_mul_of_nonneg_left (le_trans ?_ h.ge) (slack_pow_pos k).le
        exact mul_le_mul_of_nonneg_right (by linarith) unit.le

/-- A rounded number is at most half a unit away. -/
theorem RoundsTo.half (h : RoundsTo m e v) : |v - m * 2 ^ e| ≤ 1 / 2 * 2 ^ e := by
  have unit := two_zpow_pos e
  have half := halfBelow_le m e
  have low := h.ge
  have high := h.le
  rw [abs_le]
  constructor <;> nlinarith

/-- Two doubles are at most eight units apart if the numbers that are rounded to them are close. -/
theorem Close.units (close : Close 6 v w) (canonical : Canonical m e) (rounds : RoundsTo m e w)
    (canonical' : Canonical m' e') (rounds' : RoundsTo m' e' v) :
    |(m' * 2 ^ e' - m * 2 ^ e : ℚ)| ≤ 8 * 2 ^ e := by
  have unit := two_zpow_pos e
  have unit' := two_zpow_pos e'
  have bits : (m : ℚ) + 1 ≤ 2 ^ 53 := by exact_mod_cast canonical.lt
  have factor : slack ^ 6 - 1 ≤ 6.1 / 2 ^ 53 := by norm_num [slack]
  have wide : w ≤ 2 ^ 53 * 2 ^ e :=
    rounds.le.trans (mul_le_mul_of_nonneg_right (by linarith) unit.le)
  have pos := rounds.pos canonical.pos
  have pos' := rounds'.pos canonical'.pos
  have apart {a b : ℚ} (le : a ≤ slack ^ 6 * b) (hb : 0 ≤ b) (wide : b ≤ 2 ^ 53 * 2 ^ e) :
      a - b ≤ 6.1 * 2 ^ e :=
    calc a - b ≤ (slack ^ 6 - 1) * b := by linarith
      _ ≤ 6.1 / 2 ^ 53 * (2 ^ 53 * 2 ^ e) := mul_le_mul factor wide hb (by norm_num)
      _ = 6.1 * 2 ^ e := by ring
  have above := apart close.le pos.le wide
  have below : w - v ≤ 6.1 * 2 ^ e := by
    rcases le_total v w with le | le
    · exact apart close.ge pos'.le (le.trans wide)
    · linarith
  -- The other double's unit is greater only if it has all its bits.
  have small : 1 / 2 * (2 : ℚ) ^ e' ≤ 1.1 * 2 ^ e := by
    rcases le_or_gt e' e with le | more
    · have := zpow_le_zpow_right₀ (one_le_two (α := ℚ)) le
      linarith
    · have least := canonical.least
      have all : (2 ^ 52 : ℚ) ≤ m' := by exact_mod_cast canonical'.full (by omega)
      have half := halfBelow_le m' e'
      have : (2 ^ 52 - 1 / 2) * (2 : ℚ) ^ e' ≤ v :=
        (mul_le_mul_of_nonneg_right (by linarith) unit'.le).trans rounds'.ge
      linarith
  have near := abs_le.1 rounds.half
  have near' := abs_le.1 rounds'.half
  rw [abs_le]
  constructor <;> linarith

end

/-! ## Ranges -/

/-- The powers of ten of the table are below the top. -/
theorem ten_pow_lt_top {n : Nat} (h : n ≤ 308) : (10 ^ n : ℚ) < top := by
  have greatest : 10 ^ 308 ≤ (2 ^ 53 - 1) * 2 ^ 971 := by decide +kernel
  calc (10 ^ n : ℚ) ≤ 10 ^ 308 := pow_le_pow_right₀ (by norm_num) h
    _ ≤ ((2 ^ 53 - 1 : Nat) : ℚ) * 2 ^ 971 := by exact_mod_cast greatest
    _ < top := by
      unfold top
      rw [← zpow_natCast]
      exact mul_lt_mul_of_pos_right (by norm_num) (two_zpow_pos _)

/-- The least double is so small that rounding keeps what is a little greater above it. -/
theorem Close.least_le {v w : ℚ} {k : Nat} (close : Close k v w) (few : k ≤ 6)
    (above : 1.01 * 2 ^ (-1074 : Int) ≤ w) : 2 ^ (-1074 : Int) ≤ v := by
  have unit := two_zpow_pos (-1074)
  have factor : slack ^ k ≤ 1.01 :=
    (pow_le_pow_right₀ one_le_slack few).trans (by norm_num [slack])
  have pos := slack_pow_pos k
  have ge := close.ge
  have nonneg : 0 ≤ v := by
    by_contra negative
    have := mul_neg_of_pos_of_neg pos (not_le.1 negative)
    linarith
  have := mul_le_mul_of_nonneg_right factor nonneg
  linarith

/-- A number that is close to one of at most 17 digits is far below the top. -/
theorem Close.lt_top_of_le {v w : ℚ} {k : Nat} (close : Close k v w) (few : k ≤ 6) (hw : 0 ≤ w)
    (le : w ≤ 10 ^ 17) : v < top := by
  have factor : slack ^ k ≤ 10 :=
    (pow_le_pow_right₀ one_le_slack few).trans (by norm_num [slack])
  calc v ≤ 10 * 10 ^ 17 := close.le.trans (mul_le_mul factor le hw (by norm_num))
    _ = 10 ^ 18 := by norm_num
    _ < top := ten_pow_lt_top (by decide)

/-- Of the power of ten that quotients are taken by first, there are many least doubles in one. -/
theorem least_le_ten_pow : 2 * 10 ^ 15 * 2 ^ (-1074 : Int) ≤ (1 / 10 ^ 308 : ℚ) := by
  have powers : 2 * 10 ^ 15 * 10 ^ 308 ≤ 2 ^ 1074 := by decide +kernel
  rw [zpow_neg, show (1074 : Int) = (1074 : Nat) from rfl, zpow_natCast, ← div_eq_mul_inv,
    div_le_div_iff₀ (by positivity) (by positivity), one_mul]
  exact_mod_cast powers

/-- A whole number divided by the greatest power of ten still has almost all its bits. -/
theorem RoundsTo.close_div {x : Float} {m : Nat} {e : Int} {v : ℚ} (parts : Parts x m e)
    (rounds : RoundsTo m e v) (many : 1.9 * 10 ^ 15 * 2 ^ (-1074 : Int) ≤ v) :
    Close 3 v (m * 2 ^ e) := by
  refine rounds.close ?_
  rcases parts.canonical.least.lt_or_eq with above | least
  · have := parts.canonical.full above
    omega
  · have le := many.trans rounds.le
    rw [← least] at le
    have le := le_of_mul_le_mul_right le (two_zpow_pos (-1074))
    have bits : ((18 * 10 ^ 14 : Nat) : ℚ) ≤ m := by
      push_cast
      linarith
    have bits : 18 * 10 ^ 14 ≤ m := by exact_mod_cast bits
    omega

end Stratagem.Rounding
