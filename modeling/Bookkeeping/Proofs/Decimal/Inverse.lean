import Bookkeeping.Proofs.Decimal.RoundedProduct

set_option autoImplicit false

/-! # Inverses

Long division finds some digits of a quotient in each round, as many as there is room for. It keeps
one equation, `Dividing`: the digits so far times the divisor, and the remainder, are a power of
ten. It ends where nothing remains, where there is no room for another digit, or where a round has
found one digit too many, which is then given back. In each case the digits are the nearest whole
number to that power over the divisor, `IsQuotient`. Zeros are stripped from their end afterwards,
so the scale at which an inverse is the nearest amount need not be the one it is written with. -/

namespace Bookkeeping.Decimal

/-- The digits of `10 ^ e / d` with `s` decimals: the nearest whole number, and the division came
    out even unless there are no decimals left or one more would have been too much. -/
structure IsQuotient (d e q s : Nat) : Prop where
  lt : q < magnitudeBound
  scale_le : s ≤ maxScale
  eq_nearest : q = nearest (tenPow (s + e)) d
  full : q * d = tenPow (s + e) ∨ s = maxScale ∨ magnitudeBound * d ≤ tenPow (s + e + 1)

theorem lt_of_digitsAhead {q room k x : Nat} (h : digitsAhead q room k = x + 1) :
    x + 1 ≤ k ∧ x + 1 ≤ room ∧ q * tenPow (x + 1) < magnitudeBound := by
  induction k with
  | zero => cases h
  | succ k ih =>
      rw [digitsAhead] at h
      split at h
      · next hfits =>
          cases h
          exact ⟨Nat.le_refl _, hfits⟩
      · obtain ⟨hk, hfits⟩ := ih h
        exact ⟨Nat.le_succ_of_le hk, hfits⟩

theorem full_of_digitsAhead {q room k : Nat} (h : digitsAhead q room (k + 1) = 0) :
    room = 0 ∨ magnitudeBound ≤ q * 10 := by
  induction k with
  | zero =>
      rw [digitsAhead] at h
      split at h
      · cases h
      · next hfull =>
          have hten : tenPow (0 + 1) = 10 := rfl
          rw [hten] at hfull
          omega
  | succ k ih =>
      rw [digitsAhead] at h
      split at h
      · cases h
      · exact ih h

/-- No quotient of a power of ten is rounded up to the bound. -/
theorem nearest_lt {d n : Nat} (hn : n ≤ 56) (hlt : tenPow n < d * magnitudeBound) :
    nearest (tenPow n) d < magnitudeBound := by
  -- the bound and the number before it go into no power of ten a different number of times
  have hgap : ∀ n < 57, tenPow n / (magnitudeBound - 1) = tenPow n / magnitudeBound := by
    decide +kernel
  have hd : 0 < d := by
    by_contra hzero
    rw [Nat.eq_zero_of_not_pos hzero] at hlt
    omega
  by_contra hlarge
  rw [Nat.not_lt, le_nearest_iff hd (by decide)] at hlarge
  have hle : d * (magnitudeBound - 1) ≤ tenPow n := by
    unfold magnitudeBound at hlarge ⊢
    omega
  rw [← Nat.le_div_iff_mul_le (by decide), hgap n (by omega),
    Nat.le_div_iff_mul_le (by decide)] at hle
  omega

theorem IsQuotient.of_full {d e s : Nat} (he : e ≤ maxScale) (hs : s ≤ maxScale)
    (hlt : tenPow (s + e) < d * magnitudeBound)
    (hfull : s = maxScale ∨ magnitudeBound * d ≤ tenPow (s + e + 1)) :
    IsQuotient d e (nearest (tenPow (s + e)) d) s :=
  ⟨nearest_lt (Nat.add_le_add hs he) hlt, hs, rfl, .inr hfull⟩

theorem nearest_of_rest (q : Nat) {d r : Nat} (hr : r < d) :
    nearest (q * d + r) d = if d < 2 * r ∨ (d = 2 * r ∧ q % 2 = 1) then q + 1 else q := by
  have hq : (q * d + r) / d = q := by
    rw [Nat.add_comm, Nat.add_mul_div_right _ _ (Nat.zero_lt_of_lt hr), Nat.div_eq_of_lt hr,
      Nat.zero_add]
  have hrest : (q * d + r) % d = r := by
    rw [Nat.add_comm, Nat.add_mul_mod_self_right, Nat.mod_eq_of_lt hr]
  unfold nearest
  rw [hq, hrest]

/-- What long division keeps: with the remainder, the digits so far times the divisor are a power
    of ten, and it is `s` decimals away from `10 ^ e`. -/
structure Dividing (d e q r : Nat) (s : Int) (n : Nat) : Prop where
  lt : q < magnitudeBound
  rest_lt : r < d
  scale_le : s ≤ 28
  power : s + e = n
  exact : q * d + r = tenPow n

namespace Dividing

variable {d e q r n : Nat} {s : Int}

/-- Further digits keep the equation. -/
theorem more (h : Dividing d e q r s n) (x : Nat) :
    (q * tenPow x + r * tenPow x / d) * d + r * tenPow x % d = tenPow (n + x) := by
  rw [tenPow_add, ← h.exact, Nat.add_mul, Nat.add_assoc, Nat.div_add_mod', Nat.add_mul]
  ring

theorem power_lt (h : Dividing d e q r s n) : tenPow n < d * (q + 1) := by
  rw [← h.exact, Nat.mul_add, Nat.mul_comm d q, Nat.mul_one]
  exact Nat.add_lt_add_left h.rest_lt _

/-- While digits in front of the point are missing there is room for more. -/
theorem lt_of_le_scale (h : Dividing d e q r s n) (he : e ≤ maxScale) {x : Nat} (hx : s + x ≤ 0) :
    q * tenPow x + r * tenPow x / d < magnitudeBound := by
  have hpower := h.power
  have hle : q * tenPow x + r * tenPow x / d ≤ tenPow (n + x) := by
    rw [← h.more x]
    exact Nat.le_add_right_of_le (Nat.le_mul_of_pos_right _ (Nat.zero_lt_of_lt h.rest_lt))
  have hsmall : tenPow (n + x) ≤ tenPow maxScale :=
    Nat.pow_le_pow_right (by decide) (by omega)
  have hbound : tenPow maxScale < magnitudeBound := by decide
  omega

/-- A number without decimals of its own is multiplied by a power of ten. -/
theorem pad (h : Dividing d e q 0 s n) (he : e ≤ maxScale) {x : Nat} (hx : s + x ≤ 0) :
    Dividing d e (q * tenPow x) 0 (s + x) (n + x) := by
  have hpower := h.power
  have hlt := h.lt_of_le_scale he hx
  have hexact := h.more x
  rw [Nat.zero_mul, Nat.zero_div, Nat.add_zero] at hlt hexact
  rw [Nat.zero_mod] at hexact
  exact ⟨hlt, h.rest_lt, by omega, by push_cast; omega, hexact⟩

/-- One round of further digits. -/
theorem round (h : Dividing d e q r s n) {x : Nat}
    (hahead : digitsAhead q (28 - s).toNat 9 = x + 1)
    (hlt : q * tenPow (x + 1) + r * tenPow (x + 1) / d < magnitudeBound) :
    Dividing d e (q * tenPow (x + 1) + r * tenPow (x + 1) / d) (r * tenPow (x + 1) % d)
      (s + (x + 1)) (n + (x + 1)) := by
  obtain ⟨-, hroom, -⟩ := lt_of_digitsAhead hahead
  have hpower := h.power
  have hmax := h.scale_le
  have hrest : r * tenPow (x + 1) % d < d := Nat.mod_lt _ (Nat.zero_lt_of_lt h.rest_lt)
  exact ⟨hlt, hrest, by omega, by push_cast; omega, h.more (x + 1)⟩

theorem isQuotient_of_even (h : Dividing d e q 0 s n) (hs : 0 ≤ s) :
    ∃ scale : Nat, s = scale ∧ IsQuotient d e q scale := by
  obtain ⟨scale, rfl⟩ := Int.eq_ofNat_of_zero_le hs
  obtain ⟨hlt, hrest, hmax, hpower, hexact⟩ := h
  have hn : n = scale + e := by omega
  rw [Nat.add_zero, hn] at hexact
  refine ⟨scale, rfl, hlt, Int.ofNat_le.1 hmax, ?_, .inl hexact⟩
  rw [← hexact, nearest_mul _ _ hrest]

/-- Where there is no room for another digit, the last one is rounded. -/
theorem isQuotient_of_full (h : Dividing d e q r s n) (he : e ≤ maxScale)
    (hahead : digitsAhead q (28 - s).toNat 9 = 0) :
    ∃ scale : Nat, s = scale ∧
      IsQuotient d e (if d < 2 * r ∨ (d = 2 * r ∧ q % 2 = 1) then q + 1 else q) scale := by
  have hfull := full_of_digitsAhead hahead
  have hpower := h.power
  have hmax := h.scale_le
  -- while digits in front of the point are missing one more would have fitted
  have hs : 0 ≤ s := by
    by_contra hneg
    have hroom : q * 10 < magnitudeBound :=
      (Nat.le_add_right _ _).trans_lt (h.lt_of_le_scale he (x := 1) (by omega))
    omega
  obtain ⟨scale, rfl⟩ := Int.eq_ofNat_of_zero_le hs
  have hn : n = scale + e := by omega
  rw [← nearest_of_rest q h.rest_lt, h.exact, hn]
  refine ⟨scale, rfl, .of_full he (Int.ofNat_le.1 hmax) ?_ ?_⟩
  · exact hn ▸ h.power_lt.trans_le (Nat.mul_le_mul_left d h.lt)
  · rcases hfull with hroom | hlarge
    · have hlast : scale = 28 := by omega
      exact .inl hlast
    · refine .inr ?_
      rw [tenPow_succ, ← hn, ← h.exact]
      have hmul : magnitudeBound * d ≤ q * 10 * d := Nat.mul_le_mul_right d hlarge
      have hring : q * 10 * d = q * d * 10 := Nat.mul_right_comm q 10 d
      omega

/-- Where a round has found one digit too many, the one before it is rounded. -/
theorem isQuotient_of_large (h : Dividing d e q r s n) (he : e ≤ maxScale) {x : Nat}
    (hahead : digitsAhead q (28 - s).toNat 9 = x + 1)
    (hlarge : ¬ q * tenPow (x + 1) + r * tenPow (x + 1) / d < magnitudeBound) :
    ∃ scale : Nat, s + x = scale ∧
      IsQuotient d e (nearest ((q * tenPow (x + 1) + r * tenPow (x + 1) / d) * d +
        r * tenPow (x + 1) % d) (10 * d)) scale := by
  obtain ⟨hnine, hroom, hfits⟩ := lt_of_digitsAhead hahead
  have hpower := h.power
  have hexact := h.more (x + 1)
  -- with digits in front of the point missing, the quotient would not be that large
  have hs : 0 ≤ s + x := by
    by_contra hneg
    exact hlarge (h.lt_of_le_scale he (by omega))
  obtain ⟨scale, hscale⟩ := Int.eq_ofNat_of_zero_le hs
  have hn : n + x = scale + e := by omega
  have hmax : scale ≤ 28 := by omega
  rw [hexact, ← Nat.add_assoc, tenPow_succ, Nat.mul_comm 10 d,
    nearest_mul_mul _ _ _ (by decide), hn]
  refine ⟨scale, hscale, .of_full he hmax ?_ (.inr ?_)⟩
  · -- nine digits at most were added to a quotient that had room for them
    have hnew : tenPow (x + 1) ≤ magnitudeBound :=
      (Nat.pow_le_pow_right (by decide) hnine).trans (by decide : tenPow 9 ≤ magnitudeBound)
    have hlast : (q + 1) * tenPow (x + 1) ≤ magnitudeBound * 10 := by
      rw [Nat.add_mul]
      omega
    refine Nat.lt_of_mul_lt_mul_right (a := 10) ?_
    calc tenPow (scale + e) * 10 = tenPow n * tenPow (x + 1) := by
          rw [← hn, ← tenPow_succ, Nat.add_assoc, tenPow_add]
      _ < d * (q + 1) * tenPow (x + 1) := Nat.mul_lt_mul_of_pos_right h.power_lt (tenPow_pos _)
      _ = d * ((q + 1) * tenPow (x + 1)) := Nat.mul_assoc _ _ _
      _ ≤ d * (magnitudeBound * 10) := Nat.mul_le_mul_left d hlast
      _ = d * magnitudeBound * 10 := (Nat.mul_assoc _ _ _).symm
  · rw [← hn, Nat.add_assoc, ← hexact]
    exact Nat.le_add_right_of_le (Nat.mul_le_mul_right d (Nat.not_lt.1 hlarge))

end Dividing

/-- Long division ends with a quotient, whichever way it ends. -/
theorem longDivide_isQuotient {d e q r n : Nat} {s : Int} {uneven : Bool} (he : e ≤ maxScale)
    (h : Dividing d e q r s n) :
    ∃ (digits scale : Nat) (flag : Bool),
      longDivide d q r s uneven = (digits, (scale : Int), flag) ∧ IsQuotient d e digits scale := by
  fun_induction longDivide d q r s uneven generalizing n
  case case1 q s uneven hs =>
    obtain ⟨scale, rfl, hquotient⟩ := h.isQuotient_of_even hs
    exact ⟨q, scale, uneven, rfl, hquotient⟩
  case case2 q s uneven hs x ih => exact ih (h.pad he (by omega))
  case case3 q r s uneven hr hahead =>
    obtain ⟨scale, rfl, hquotient⟩ := h.isQuotient_of_full he hahead
    exact ⟨_, scale, true, rfl, hquotient⟩
  case case4 q r s uneven hr x hahead q' r' hlt ih => exact ih (h.round hahead hlt)
  case case5 q r s uneven hr x hahead q' r' hlarge =>
    obtain ⟨scale, hscale, hquotient⟩ := h.isQuotient_of_large he hahead hlarge
    exact ⟨_, scale, true, by rw [hscale], hquotient⟩

/-! ## Stripping zeros -/

/-- The same number with fewer zeros at its end. -/
def Strips (q s : Nat) (stripped : Nat × Nat) : Prop :=
  ∃ k, q = stripped.1 * tenPow k ∧ s = stripped.2 + k

theorem Strips.refl (q s : Nat) : Strips q s (q, s) := ⟨0, by simp, rfl⟩

theorem Strips.trans {q s : Nat} {first second : Nat × Nat} (h : Strips q s first)
    (hsecond : Strips first.1 first.2 second) : Strips q s second := by
  obtain ⟨k, rfl, rfl⟩ := h
  obtain ⟨m, hq, hs⟩ := hsecond
  exact ⟨m + k, by rw [hq, Nat.mul_assoc, ← tenPow_add], by rw [hs, Nat.add_assoc]⟩

theorem strips_cut {k q s : Nat} (hk : k ≤ s) (hq : q % tenPow k = 0) :
    Strips q s (q / tenPow k, s - k) :=
  ⟨k, (Nat.div_mul_cancel (Nat.dvd_of_mod_eq_zero hq)).symm, (Nat.sub_add_cancel hk).symm⟩

theorem strips_stripZeros (k q s : Nat) : Strips q s (stripZeros k q s) := by
  unfold stripZeros
  split
  · next h => exact strips_cut h.1 h.2
  · exact .refl q s

theorem strips_stripEights (q s : Nat) : Strips q s (stripEights q s) := by
  fun_induction stripEights q s
  case case1 q s h ih => exact (strips_cut h.2.1 h.2.2).trans ih
  case case2 q s h => exact .refl q s

theorem strips_stripQuotient (q s : Nat) : Strips q s (stripQuotient q s) :=
  (((strips_stripEights q s).trans (strips_stripZeros 4 _ _)).trans
    (strips_stripZeros 2 _ _)).trans (strips_stripZeros 1 _ _)

/-! ## The inverse -/

theorem ofParts?_of_lt {n : Int} {s : Nat} (hn : n.natAbs < magnitudeBound) (hs : s ≤ maxScale) :
    ∃ c, ofParts? n s = some c ∧ c.toRat = n / 10 ^ s := by
  refine ⟨⟨decide (n < 0), n.natAbs, s, hn, hs⟩, dif_pos ⟨hn, hs⟩, ?_⟩
  rw [toRat_eq, coeff]
  congr 2
  by_cases hneg : n < 0
  · simp only [hneg, decide_true, if_true]
    omega
  · simp only [hneg, decide_false, Bool.false_eq_true, if_false]
    omega

/-- The digits of a division, with a sign and written with fewer zeros, are the quotient rounded to
    nearest. -/
theorem IsQuotient.nearestAt {d e q s : Nat} {σ : Int} {c : Decimal} (h : IsQuotient d e q s)
    (hd : 0 < d) (hσ : |(σ : ℚ)| = 1) (hc : c.toRat = σ * q / 10 ^ s) :
    NearestAt s (σ * (10 ^ e / d)) c := by
  have hd' : (0 : ℚ) < d := Nat.cast_pos.2 hd
  have hpow : (0 : ℚ) < 10 ^ s := by positivity
  have hdigits : c.toRat * 10 ^ s = σ * q := by rw [hc, div_mul_cancel₀ _ hpow.ne']
  have hvalue : σ * ((10 : ℚ) ^ e / d) * 10 ^ s = σ * ((tenPow (s + e) : Nat) / d) := by
    rw [cast_tenPow, pow_add]
    ring
  refine ⟨h.scale_le, ⟨σ * q, by rw [hdigits]; push_cast; rfl⟩, ?_, ?_⟩
  · have hnear := abs_nearest_sub_le (tenPow (s + e)) d hd
    rw [← h.eq_nearest] at hnear
    rw [← abs_of_pos hpow, ← abs_mul, sub_mul, hdigits, hvalue, ← mul_sub, abs_mul,
      hσ, one_mul]
    exact hnear
  · rcases h.full with hexact | hmax | hlarge
    · left
      refine mul_right_cancel₀ hpow.ne' ?_
      rw [hdigits, hvalue, ← hexact, Nat.cast_mul, mul_div_cancel_right₀ _ hd'.ne']
    · exact .inr (.inl hmax)
    · right; right
      have hcast : (magnitudeBound : ℚ) * d ≤ 10 ^ (s + e + 1) := by
        rw [← cast_tenPow]
        exact_mod_cast hlarge
      have hle : (magnitudeBound : ℚ) ≤ 10 ^ e / d * 10 ^ (s + 1) := by
        rw [div_mul_eq_mul_div, ← pow_add, le_div_iff₀ hd']
        rwa [show e + (s + 1) = s + e + 1 by omega]
      rw [abs_mul, hσ, one_mul, abs_of_pos (by positivity)]
      linarith

theorem one_div_toRat {p : Decimal} (hp : p.isZero = false) :
    1 / p.toRat = p.coeff.sign * (10 ^ p.scale / p.magnitude) := by
  have hcoeff : (p.coeff : ℚ) ≠ 0 := by
    rw [Int.cast_ne_zero, Ne, ← isZero_iff, hp]
    decide
  have hmagnitude : (p.magnitude : ℚ) = p.coeff.sign * p.coeff := by
    rw [← natAbs_coeff, ← Int.cast_natCast, ← Int.sign_mul_self_eq_natAbs, Int.cast_mul]
  have hsign : (p.coeff.sign : ℚ) ≠ 0 := by
    rw [Int.cast_ne_zero, Ne, Int.sign_eq_zero_iff_zero]
    exact_mod_cast hcoeff
  rw [toRat_eq, hmagnitude, one_div_div]
  field_simp

/-- Every amount but zero has an inverse, which is rounded to nearest. -/
theorem inverse?_nearestAt {p : Decimal} (h : p.toRat ≠ 0) :
    ∃ c, p.inverse? = some c ∧ ∃ s, NearestAt s (1 / p.toRat) c := by
  have hp : p.isZero = false := by rwa [Ne, toRat_eq_zero_iff, Bool.not_eq_true] at h
  have hd : 0 < p.magnitude := by
    rw [isZero, beq_eq_false_iff_ne] at hp
    exact Nat.pos_of_ne_zero hp
  have hone : 1 / p.magnitude < magnitudeBound :=
    (Nat.div_le_self _ _).trans_lt (by decide)
  have hstart : Dividing p.magnitude p.scale (1 / p.magnitude) (1 % p.magnitude) (-p.scale) 0 :=
    ⟨hone, Nat.mod_lt _ hd, by omega, by omega, Nat.div_add_mod' 1 p.magnitude⟩
  obtain ⟨digits, scale, uneven, hdivide, hquotient⟩ : ∃ (digits scale : Nat) (uneven : Bool),
      longDivide p.magnitude (1 / p.magnitude) (1 % p.magnitude) (-p.scale) false =
        (digits, (scale : Int), uneven) ∧ IsQuotient p.magnitude p.scale digits scale :=
    longDivide_isQuotient p.scale_le hstart
  obtain ⟨stripped, ⟨k, hdigits, hscale⟩, hinverse⟩ : ∃ stripped, Strips digits scale stripped ∧
      p.inverse? = ofParts? (p.coeff.sign * stripped.1) stripped.2 := by
    rw [inverse?, hp, if_neg (by decide)]
    dsimp only
    rw [hdivide]
    cases uneven with
    | false => exact ⟨_, .refl digits scale, rfl⟩
    | true => exact ⟨_, strips_stripQuotient digits scale, rfl⟩
  have hsign : p.coeff.sign.natAbs = 1 := by
    rw [Int.natAbs_sign, if_neg]
    rw [← isZero_iff, hp]
    decide
  have hlt : (p.coeff.sign * stripped.1).natAbs < magnitudeBound := by
    rw [Int.natAbs_mul, hsign, Nat.one_mul, Int.natAbs_natCast]
    have hle : stripped.1 ≤ digits := hdigits ▸ Nat.le_mul_of_pos_right _ (tenPow_pos k)
    exact hle.trans_lt hquotient.lt
  obtain ⟨c, hc, hvalue⟩ := ofParts?_of_lt hlt
    ((hscale ▸ Nat.le_add_right _ _ : stripped.2 ≤ scale).trans hquotient.scale_le)
  refine ⟨c, hinverse.trans hc, scale, ?_⟩
  rw [one_div_toRat hp]
  refine hquotient.nearestAt hd ?_ ?_
  · rw [← Int.cast_abs, Int.abs_eq_natAbs, hsign]
    norm_num
  · rw [hvalue, hdigits, hscale, Nat.cast_mul, cast_tenPow, pow_add]
    push_cast
    field_simp

/-- Zero has none. -/
theorem toRat_ne_zero_of_inverse? {p c : Decimal} (h : p.inverse? = some c) : p.toRat ≠ 0 := by
  intro hzero
  rw [inverse?, if_pos ((toRat_eq_zero_iff p).1 hzero)] at h
  cases h

end Bookkeeping.Decimal
