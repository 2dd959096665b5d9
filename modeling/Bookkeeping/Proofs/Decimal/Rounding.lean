import Bookkeeping.Proofs.Decimal.ExactSum

set_option autoImplicit false

/-! # Rounded sums

A sum that does not fit is rounded. `Rounds` says what that does to its value: the result is
within half a unit of its last decimal, and it is exact unless one decimal more would have been
too much. The first half bounds the error by the scale of the result, the second half bounds the
scale by the size of the sum, so a sum of moderate size is off by very little.

Comparisons within the tolerance are made through a difference. A difference is only rounded when
it is far too large to matter, so `near` compares the values themselves. -/

namespace Bookkeeping.Decimal

/-! ## Rounding to nearest -/

theorem abs_nearest_sub_le (n d : Nat) (hd : 0 < d) : |(nearest n d : ℚ) - n / d| ≤ 1 / 2 := by
  have hd' : (0 : ℚ) < d := Nat.cast_pos.2 hd
  have hr : n % d < d := Nat.mod_lt n hd
  have hsplit : (n : ℚ) / d = (n / d : Nat) + (n % d : Nat) / (d : ℚ) := by
    have hn : ((d * (n / d) + n % d : Nat) : ℚ) = n := by rw [Nat.div_add_mod]
    rw [← hn]
    push_cast
    field_simp
  have hrest : (0 : ℚ) ≤ (n % d : Nat) / (d : ℚ) := by positivity
  rw [hsplit]
  unfold nearest
  dsimp only
  split
  · next hup =>
      -- rounded up: what is left over is at least half of the divisor
      have hhalf : (d : ℚ) ≤ 2 * (n % d : Nat) := by
        have : d ≤ 2 * (n % d) := by omega
        exact_mod_cast this
      have hge : (1 : ℚ) / 2 ≤ (n % d : Nat) / (d : ℚ) := by
        rw [le_div_iff₀ hd']
        linarith
      have hle : ((n % d : Nat) : ℚ) / d ≤ 1 := by
        rw [div_le_one hd']
        exact_mod_cast Nat.le_of_lt hr
      rw [abs_le]
      push_cast
      constructor <;> linarith
  · next hdown =>
      have hhalf : 2 * ((n % d : Nat) : ℚ) ≤ d := by
        have : 2 * (n % d) ≤ d := by omega
        exact_mod_cast this
      have hle : ((n % d : Nat) : ℚ) / d ≤ 1 / 2 := by
        rw [div_le_iff₀ hd']
        linarith
      rw [abs_le]
      constructor <;> linarith

theorem abs_dropDecimals_sub_le (n k : Nat) : |(dropDecimals n k : ℚ) - n / 10 ^ k| ≤ 1 / 2 := by
  have h := abs_nearest_sub_le n (tenPow k) (tenPow_pos k)
  rwa [cast_tenPow] at h

/-! ## What a search for a scale finds -/

/-- The scale found is the largest one at which the magnitude fits. -/
theorem fitAt_eq_some {negative : Bool} {n s t : Nat} {ht : t ≤ maxScale} {c : Decimal}
    (h : fitAt negative n s t ht = some c) :
    c.negative = negative ∧ c.scale ≤ t ∧ c.magnitude = dropDecimals n (s - c.scale) ∧
      ∀ u, c.scale < u → u ≤ t → magnitudeBound ≤ dropDecimals n (s - u) := by
  induction t with
  | zero =>
      rw [fitAt] at h
      split at h
      · cases h
        refine ⟨rfl, Nat.le_refl 0, rfl, ?_⟩
        intro u hlt hle
        omega
      · cases h
  | succ t ih =>
      rw [fitAt] at h
      split at h
      · cases h
        refine ⟨rfl, Nat.le_refl _, rfl, ?_⟩
        intro u hlt hle
        exact absurd hle (Nat.not_le.2 hlt)
      · next hlarge =>
          obtain ⟨hnegative, hscale, hmagnitude, habove⟩ := ih h
          refine ⟨hnegative, Nat.le_succ_of_le hscale, hmagnitude, ?_⟩
          intro u hlt hle
          rcases Nat.lt_or_ge t u with htop | hbelow
          · obtain rfl : u = t + 1 := Nat.le_antisymm hle htop
            exact Nat.not_lt.1 hlarge
          · exact habove u hlt hbelow

/-- No scale is found when the magnitude does not fit even without decimals. -/
theorem fitAt_eq_none {negative : Bool} {n s t : Nat} {ht : t ≤ maxScale}
    (h : fitAt negative n s t ht = none) : magnitudeBound ≤ dropDecimals n s := by
  induction t with
  | zero =>
      rw [fitAt] at h
      split at h
      · cases h
      · next hlarge => exact Nat.not_lt.1 hlarge
  | succ t ih =>
      rw [fitAt] at h
      split at h
      · cases h
      · exact ih h

/-! ## Rounded values -/

/-- The amount is the value rounded to its scale, and it is exact unless one decimal more would
    have been too much. -/
structure Rounds (value : ℚ) (c : Decimal) : Prop where
  near : |c.toRat - value| * 10 ^ c.scale ≤ 1 / 2
  full : c.toRat = value ∨ (magnitudeBound : ℚ) ≤ |value| * 10 ^ (c.scale + 1) + 1 / 2

/-- The amount is the value rounded to nearest at a scale, whether or not that is the one it is
    written with: it is whole there and off by half a unit at most, and it is exact unless there are
    no decimals left or one more would have been too much. -/
structure NearestAt (s : Nat) (value : ℚ) (c : Decimal) : Prop where
  scale_le : s ≤ maxScale
  whole : ∃ n : Int, c.toRat * 10 ^ s = n
  near : |c.toRat - value| * 10 ^ s ≤ 1 / 2
  full : c.toRat = value ∨ s = maxScale ∨
    (magnitudeBound : ℚ) ≤ |value| * 10 ^ (s + 1) + 1 / 2

theorem Rounds.of_exact {value : ℚ} {c : Decimal} (h : c.toRat = value) : Rounds value c := by
  refine ⟨?_, .inl h⟩
  rw [h, sub_self, abs_zero, zero_mul]
  norm_num

/-- The magnitude that is left at a scale differs from the value there by at most a half. -/
theorem abs_dropDecimals_sub_value {n : Int} {s u : Nat} (hu : u ≤ s) :
    |(dropDecimals n.natAbs (s - u) : ℚ) - |(n : ℚ) / 10 ^ s| * 10 ^ u| ≤ 1 / 2 := by
  have hvalue : |(n : ℚ) / 10 ^ s| * 10 ^ u = n.natAbs / 10 ^ (s - u) := by
    have hpow : (10 : ℚ) ^ s = 10 ^ (s - u) * 10 ^ u := by rw [← pow_add, Nat.sub_add_cancel hu]
    rw [abs_div, abs_of_pos (by positivity : (0 : ℚ) < 10 ^ s), ← Int.cast_abs, ← Nat.cast_natAbs,
      hpow]
    field_simp
  rw [hvalue]
  exact abs_dropDecimals_sub_le _ _

/-- What is given with all its decimals is exact. -/
theorem fit_exact {n : Int} {s : Nat} {c : Decimal} (h : fit n s = some c) (hs : c.scale = s) :
    c.toRat = n / 10 ^ s := by
  unfold fit at h
  obtain ⟨hnegative, _, hmagnitude, _⟩ := fitAt_eq_some h
  rw [hs, Nat.sub_self, dropDecimals_zero] at hmagnitude
  rw [toRat_eq, hs]
  congr 2
  rw [coeff, hnegative, hmagnitude]
  by_cases hn : n < 0
  · simp only [hn, decide_true, if_true]
    omega
  · simp only [hn, decide_false, Bool.false_eq_true, if_false]
    omega

/-- A value is rounded to the scale that it fits at. -/
theorem fit_nearestAt {n : Int} {s : Nat} {c : Decimal} (h : fit n s = some c) :
    NearestAt c.scale (n / 10 ^ s) c := by
  have hexact := fit_exact h
  unfold fit at h
  obtain ⟨hnegative, hscale, hmagnitude, habove⟩ := fitAt_eq_some h
  obtain ⟨hscale, hmax⟩ := Nat.le_min.1 hscale
  have hnear := abs_dropDecimals_sub_value (n := n) hscale
  rw [← hmagnitude] at hnear
  have hpow : (0 : ℚ) < 10 ^ c.scale := by positivity
  -- result and value have one sign, so they differ by as much as their magnitudes do
  have hsame : |c.toRat - n / 10 ^ s| * 10 ^ c.scale =
      |(c.magnitude : ℚ) - |(n : ℚ) / 10 ^ s| * 10 ^ c.scale| := by
    rw [← abs_of_pos hpow, ← abs_mul, sub_mul, abs_of_pos hpow, toRat_mul_pow, coeff, hnegative]
    have hs' : (0 : ℚ) < 10 ^ s := by positivity
    by_cases hn : n < 0
    · have hvalue : (n : ℚ) / 10 ^ s < 0 := div_neg_of_neg_of_pos (by exact_mod_cast hn) hs'
      rw [abs_of_neg hvalue, ← abs_neg]
      simp only [hn, decide_true, if_true]
      congr 1
      push_cast
      ring
    · have hvalue : 0 ≤ (n : ℚ) / 10 ^ s :=
        div_nonneg (by exact_mod_cast Int.not_lt.1 hn) hs'.le
      rw [abs_of_nonneg hvalue]
      simp [hn]
  refine ⟨hmax, ⟨c.coeff, c.toRat_mul_pow⟩, hsame ▸ hnear, ?_⟩
  rcases Nat.lt_or_ge c.scale s with hlt | hge
  · rcases Nat.lt_or_ge c.scale maxScale with hroom | hfull
    · right; right
      have hlarge := habove (c.scale + 1) (Nat.lt_succ_self _) (Nat.le_min.2 ⟨hlt, hroom⟩)
      have hnext : |(dropDecimals n.natAbs (s - (c.scale + 1)) : ℚ) -
          |(n : ℚ) / 10 ^ s| * 10 ^ (c.scale + 1)| ≤ 1 / 2 := abs_dropDecimals_sub_value hlt
      have hcast : (magnitudeBound : ℚ) ≤ dropDecimals n.natAbs (s - (c.scale + 1)) := by
        exact_mod_cast hlarge
      refine hcast.trans ?_
      linarith [(abs_le.1 hnext).2]
    · exact .inr (.inl (Nat.le_antisymm hmax hfull))
  · exact .inl (hexact (Nat.le_antisymm hscale hge))

theorem fit_rounds {n : Int} {s : Nat} {c : Decimal} (hs : s ≤ maxScale)
    (h : fit n s = some c) : Rounds (n / 10 ^ s) c := by
  obtain ⟨-, -, hnear, hfull⟩ := fit_nearestAt h
  refine ⟨hnear, ?_⟩
  rcases hfull with hexact | hmax | hfull
  · exact .inl hexact
  · -- at the largest scale there was nothing to drop
    have hscale : c.scale ≤ s := (Nat.le_min.1 (fitAt_eq_some h).2.1).1
    exact .inl (fit_exact h (Nat.le_antisymm hscale (hmax ▸ hs)))
  · exact .inr hfull

theorem fit_eq_none {n : Int} {s : Nat} (h : fit n s = none) :
    (magnitudeBound : ℚ) ≤ |(n : ℚ) / 10 ^ s| + 1 / 2 := by
  have hlarge : (magnitudeBound : ℚ) ≤ dropDecimals n.natAbs s := by
    exact_mod_cast fitAt_eq_none h
  have hnear := abs_dropDecimals_sub_value (n := n) (Nat.zero_le s)
  rw [Nat.sub_zero, pow_zero, mul_one] at hnear
  refine hlarge.trans ?_
  linarith [(abs_le.1 hnear).2]

/-! ## Sums -/

theorem add_rounds {a b c : Decimal} (h : a.add b = some c) : Rounds (a.toRat + b.toRat) c := by
  unfold add at h
  split at h
  · next hzero =>
      cases h
      exact .of_exact (by rw [(toRat_eq_zero_iff a).2 hzero, zero_add])
  · split at h
    · next hzero =>
        cases h
        exact .of_exact (by rw [(toRat_eq_zero_iff b).2 hzero, add_zero])
    · rw [← aligned_sum]
      exact fit_rounds (Nat.max_le.2 ⟨a.scale_le, b.scale_le⟩) h

theorem add_eq_none {a b : Decimal} (h : a.add b = none) :
    (magnitudeBound : ℚ) ≤ |a.toRat + b.toRat| + 1 / 2 := by
  unfold add at h
  split at h
  · cases h
  · split at h
    · cases h
    · rw [← aligned_sum]
      exact fit_eq_none h

theorem rounds_of_checkedAdd {a b c : Decimal} (h : a.checkedAdd b = .ok c) :
    Rounds (a.toRat + b.toRat) c := by
  unfold checkedAdd at h
  cases hadd : a.add b with
  | none =>
      rw [hadd] at h
      cases h
  | some d =>
      rw [hadd] at h
      cases h
      exact add_rounds hadd

/-- A sum of amounts without decimals is exact. -/
theorem checkedAdd_whole {a b c : Decimal} (ha : a.scale = 0) (hb : b.scale = 0)
    (h : a.checkedAdd b = .ok c) : c.scale = 0 ∧ c.toRat = a.toRat + b.toRat := by
  have hadd : a.add b = some c := by
    unfold checkedAdd at h
    cases hadd : a.add b with
    | none =>
        rw [hadd] at h
        cases h
    | some d =>
        rw [hadd] at h
        cases h
        rfl
  unfold add at hadd
  split at hadd
  · next hzero =>
      cases hadd
      exact ⟨hb, by rw [(toRat_eq_zero_iff a).2 hzero, zero_add]⟩
  · split at hadd
    · next hzero =>
        cases hadd
        exact ⟨ha, by rw [(toRat_eq_zero_iff b).2 hzero, add_zero]⟩
    · have hscale : c.scale = max a.scale b.scale := by
        have hle := (fitAt_eq_some hadd).2.1
        rw [ha, hb] at hle ⊢
        exact Nat.le_zero.1 hle
      refine ⟨by rw [hscale, ha, hb]; rfl, ?_⟩
      rw [← aligned_sum]
      exact fit_exact hadd hscale

/-! ## Long sums -/

/-- Half a unit of the last decimal that an amount around `10 ^ k` has. -/
def halfUnit (k : Nat) : ℚ := 10 ^ k / (2 * 10 ^ 28)

theorem halfUnit_pos (k : Nat) : 0 < halfUnit k := by
  unfold halfUnit
  positivity

/-- The error of a sum that is not much larger than `10 ^ k`: at that size, `28 - k` decimals
    always fit. -/
theorem Rounds.error_le {value : ℚ} {c : Decimal} (h : Rounds value c) {k : Nat}
    (hk : |value| ≤ 7 * 10 ^ k) : |c.toRat - value| ≤ halfUnit k := by
  rcases h.full with hexact | hfull
  · rw [hexact, sub_self, abs_zero]
    exact (halfUnit_pos k).le
  · have hpow : (0 : ℚ) < 10 ^ c.scale := by positivity
    -- a magnitude that is too large by one decimal leaves no room for fewer than these
    have hroom : (10 : ℚ) ^ 28 < 10 ^ (k + (c.scale + 1)) := by
      have hbound : |value| * 10 ^ (c.scale + 1) ≤ 7 * 10 ^ k * 10 ^ (c.scale + 1) :=
        mul_le_mul_of_nonneg_right hk (by positivity)
      have hsplit : (7 : ℚ) * 10 ^ (k + (c.scale + 1)) = 7 * 10 ^ k * 10 ^ (c.scale + 1) := by
        rw [pow_add, mul_assoc]
      have hnumber : (7 : ℚ) * 10 ^ 28 + 1 / 2 < magnitudeBound := by norm_num
      linarith
    have hscale : 28 ≤ k + c.scale := by
      have := (pow_lt_pow_iff_right₀ (by norm_num : (1 : ℚ) < 10)).1 hroom
      omega
    have hpows : (10 : ℚ) ^ 28 ≤ 10 ^ k * 10 ^ c.scale := by
      rw [← pow_add]
      exact pow_le_pow_right₀ (by norm_num) hscale
    have herror : |c.toRat - value| ≤ 1 / 2 / 10 ^ c.scale := (le_div_iff₀ hpow).2 h.near
    refine herror.trans ?_
    rw [halfUnit, div_div, div_le_div_iff₀ (by positivity) (by positivity)]
    linarith

/-- The magnitudes of amounts together, with half a unit for each. -/
def load (k : Nat) (amounts : List Decimal) : ℚ :=
  (amounts.map fun a => |a.toRat| + halfUnit k).sum

theorem load_cons (k : Nat) (a : Decimal) (amounts : List Decimal) :
    load k (a :: amounts) = |a.toRat| + halfUnit k + load k amounts := by
  rw [load, List.map_cons, List.sum_cons, load]

theorem load_eq (k : Nat) (amounts : List Decimal) :
    load k amounts = (amounts.map fun a => |a.toRat|).sum + amounts.length * halfUnit k := by
  rw [load, List.sum_map_add, List.map_const', List.sum_replicate, nsmul_eq_mul]

theorem load_le_of_sublist (k : Nat) {part amounts : List Decimal} (h : part.Sublist amounts) :
    load k part ≤ load k amounts := by
  refine (h.map _).sum_le_sum ?_
  intro x hx
  obtain ⟨a, _, rfl⟩ := List.mem_map.1 hx
  have := halfUnit_pos k
  positivity

theorem load_nonneg (k : Nat) (amounts : List Decimal) : 0 ≤ load k amounts :=
  load_le_of_sublist k (List.nil_sublist amounts)

/-- Every addition adds half a unit at most to the error, as long as the sums on the way keep
    their size. -/
theorem abs_checkedSumFrom_sub_le {amounts : List Decimal} {start total : Decimal} {k : Nat}
    (h : checkedSumFrom start amounts = .ok total)
    (hk : |start.toRat| + load k amounts ≤ 7 * 10 ^ k) :
    |total.toRat - (start.toRat + (amounts.map toRat).sum)| ≤ amounts.length * halfUnit k := by
  induction amounts generalizing start with
  | nil =>
      cases h
      simp
  | cons a rest ih =>
      rw [checkedSumFrom, List.foldlM_cons] at h
      obtain ⟨sum, hsum, hrest⟩ := bind_eq_ok.1 h
      rw [load_cons] at hk
      rw [List.map_cons, List.sum_cons, List.length_cons, Nat.cast_succ, add_mul, one_mul]
      have hunit := halfUnit_pos k
      have hload := load_nonneg k rest
      have htriangle : |start.toRat + a.toRat| ≤ |start.toRat| + |a.toRat| := abs_add_le _ _
      have hstep := (rounds_of_checkedAdd hsum).error_le (k := k) (by linarith)
      have hsize : |sum.toRat| ≤ |start.toRat| + |a.toRat| + halfUnit k := by
        have := abs_sub_abs_le_abs_sub sum.toRat (start.toRat + a.toRat)
        linarith
      have hmore := ih hrest (by linarith)
      calc |total.toRat - (start.toRat + (a.toRat + (rest.map toRat).sum))|
          = |total.toRat - (sum.toRat + (rest.map toRat).sum) +
              (sum.toRat - (start.toRat + a.toRat))| := by
            congr 1
            ring
        _ ≤ |total.toRat - (sum.toRat + (rest.map toRat).sum)| +
              |sum.toRat - (start.toRat + a.toRat)| := abs_add_le _ _
        _ ≤ rest.length * halfUnit k + halfUnit k := add_le_add hmore hstep

theorem checkedAdd_zero (a : Decimal) : zero.checkedAdd a = .ok a := rfl

/-- A sum starts with the first of its amounts, so it takes one addition less than there are
    amounts. -/
theorem abs_checkedSum_sub_le {amounts : List Decimal} {total : Decimal} {k : Nat}
    (h : checkedSum amounts = .ok total) (hk : load k amounts ≤ 7 * 10 ^ k) :
    |total.toRat - (amounts.map toRat).sum| ≤ (amounts.length - 1 : Nat) * halfUnit k := by
  cases amounts with
  | nil =>
      cases h
      simp
  | cons a rest =>
      rw [checkedSum, checkedSumFrom, List.foldlM_cons, checkedAdd_zero, ok_bind] at h
      rw [load_cons] at hk
      have hunit := halfUnit_pos k
      rw [List.map_cons, List.sum_cons]
      exact abs_checkedSumFrom_sub_le h (by linarith)

/-- A rounded sum is not larger than the load of its amounts, with half a unit to spare. -/
theorem abs_checkedSum_le {amounts : List Decimal} {total : Decimal} {k : Nat}
    (h : checkedSum amounts = .ok total) (hne : amounts ≠ []) (hk : load k amounts ≤ 7 * 10 ^ k) :
    |total.toRat| + halfUnit k ≤ load k amounts := by
  have herror := abs_checkedSum_sub_le h hk
  have hlength : ((amounts.length - 1 : Nat) : ℚ) = amounts.length - 1 := by
    rw [Nat.cast_sub (List.length_pos_of_ne_nil hne), Nat.cast_one]
  have hsum : |(amounts.map toRat).sum| ≤ (amounts.map fun a => |a.toRat|).sum := by
    clear h hne hk herror hlength
    induction amounts with
    | nil => simp
    | cons a rest ih =>
        simp only [List.map_cons, List.sum_cons]
        exact (abs_add_le _ _).trans (add_le_add le_rfl ih)
  have htriangle := abs_sub_abs_le_abs_sub total.toRat (amounts.map toRat).sum
  rw [hlength, sub_mul, one_mul] at herror
  rw [load_eq]
  linarith

/-- A sum of amounts without decimals is exact, however long it is. -/
theorem toRat_checkedSum_whole {amounts : List Decimal} {total : Decimal}
    (h : checkedSum amounts = .ok total) (hscale : ∀ a ∈ amounts, a.scale = 0) :
    total.toRat = (amounts.map toRat).sum := by
  suffices hfrom : ∀ start : Decimal, start.scale = 0 → checkedSumFrom start amounts = .ok total →
      total.toRat = start.toRat + (amounts.map toRat).sum by
    rw [hfrom zero rfl h, toRat_zero, zero_add]
  clear h
  induction amounts with
  | nil =>
      intro start _ h
      cases h
      simp
  | cons a rest ih =>
      intro start hstart h
      rw [checkedSumFrom, List.foldlM_cons] at h
      obtain ⟨sum, hsum, hrest⟩ := bind_eq_ok.1 h
      obtain ⟨hsumScale, hvalue⟩ :=
        checkedAdd_whole hstart (hscale a List.mem_cons_self) hsum
      rw [ih (fun b hb => hscale b (List.mem_cons_of_mem a hb)) sum hsumScale hrest, hvalue,
        List.map_cons, List.sum_cons, add_assoc]

/-! ## Comparisons by value -/

theorem lt_iff_toRat (a b : Decimal) : a < b ↔ a.toRat < b.toRat := by
  rw [lt_def, toRat_eq, toRat_eq, div_lt_div_iff₀ (by positivity) (by positivity), ← cast_tenPow,
    ← cast_tenPow]
  exact_mod_cast Iff.rfl

theorem le_iff_toRat (a b : Decimal) : a ≤ b ↔ a.toRat ≤ b.toRat := by
  rw [le_iff_not_lt, lt_iff_toRat, not_lt]

@[simp] theorem toRat_neg (a : Decimal) : a.neg.toRat = -a.toRat := by
  have hscale : a.neg.scale = a.scale := by
    unfold neg
    split <;> rfl
  rw [toRat_eq, toRat_eq, coeff_neg, hscale]
  push_cast
  ring

@[simp] theorem toRat_abs (a : Decimal) : a.abs.toRat = |a.toRat| := by
  have hscale : a.abs.scale = a.scale := rfl
  rw [toRat_eq, toRat_eq, coeff_abs, hscale, abs_div, abs_of_pos (by positivity : (0 : ℚ) < 10 ^ _),
    ← Int.cast_abs, ← natAbs_coeff, Int.natCast_natAbs]

theorem toRat_tolerance : tolerance.toRat = 1 / 10 ^ 6 := by
  rw [toRat_eq]
  norm_num [tolerance, coeff]

/-- An amount is negligible when its value is below the tolerance. -/
theorem isNegligible_iff (a : Decimal) : a.isNegligible = true ↔ |a.toRat| < 1 / 10 ^ 6 := by
  rw [isNegligible, decide_eq_true_iff, lt_iff_toRat, toRat_abs, toRat_tolerance]

/-- A rounded difference is far from the tolerance on the same side as the exact one. -/
theorem Rounds.abs_le_tolerance_iff {value : ℚ} {c : Decimal} (h : Rounds value c) :
    |c.toRat| ≤ 1 / 10 ^ 6 ↔ |value| ≤ 1 / 10 ^ 6 := by
  rcases h.full with hexact | hfull
  · rw [hexact]
  · have hpow : (0 : ℚ) < 10 ^ c.scale := by positivity
    have hscale : (10 : ℚ) ^ c.scale ≤ 10 ^ 28 := pow_le_pow_right₀ (by norm_num) c.scale_le
    have hnumber : (magnitudeBound : ℚ) = 79228162514264337593543950336 := by norm_num
    rw [pow_succ, ← mul_assoc, hnumber] at hfull
    -- both are at least a half, measured in units of the last decimal
    have hvalue : 1 / 2 * 10 ^ c.scale < |value| * 10 ^ c.scale := by linarith
    have hresult : 1 / 2 * 10 ^ c.scale < |c.toRat| * 10 ^ c.scale := by
      have htriangle : |value| ≤ |c.toRat| + |c.toRat - value| := by
        have := abs_sub_abs_le_abs_sub value c.toRat
        rw [abs_sub_comm value] at this
        linarith
      have hscaled := mul_le_mul_of_nonneg_right htriangle hpow.le
      rw [add_mul] at hscaled
      have hnear := h.near
      linarith
    have hlarge : 1 / 2 < |value| := lt_of_mul_lt_mul_right hvalue hpow.le
    have hlarge' : 1 / 2 < |c.toRat| := lt_of_mul_lt_mul_right hresult hpow.le
    have htolerance : (1 : ℚ) / 10 ^ 6 < 1 / 2 := by norm_num
    constructor <;> intro hsmall <;> linarith

theorem sub_rounds {a b d : Decimal} (h : a.sub b = some d) : Rounds (a.toRat - b.toRat) d := by
  rw [sub_eq_add_neg a.toRat, ← toRat_neg]
  exact add_rounds h

theorem sub_eq_none {a b : Decimal} (h : a.sub b = none) :
    (magnitudeBound : ℚ) ≤ |a.toRat - b.toRat| + 1 / 2 := by
  rw [sub_eq_add_neg a.toRat, ← toRat_neg]
  exact add_eq_none h

/-- A difference is within the tolerance exactly if that of the values is, even if it is rounded. -/
theorem abs_le_tolerance_of_sub {a b d : Decimal} (h : a.sub b = some d) :
    d.abs ≤ tolerance ↔ |a.toRat - b.toRat| ≤ 1 / 10 ^ 6 := by
  rw [le_iff_toRat, toRat_abs, toRat_tolerance]
  exact (sub_rounds h).abs_le_tolerance_iff

/-- Amounts without a difference are far apart. -/
theorem lt_abs_of_sub_eq_none {a b : Decimal} (h : a.sub b = none) :
    1 / 10 ^ 6 < |a.toRat - b.toRat| := by
  have hlarge := sub_eq_none h
  have hnumber : (1 : ℚ) / 10 ^ 6 + 1 / 2 < magnitudeBound := by norm_num
  linarith

/-- Amounts are near each other when their values differ by at most the tolerance, over the whole
    range of amounts. -/
theorem near_iff (a b : Decimal) : a.near b = true ↔ |a.toRat - b.toRat| ≤ 1 / 10 ^ 6 := by
  unfold near
  cases hsub : a.sub b with
  | none =>
      have hfar := lt_abs_of_sub_eq_none hsub
      simp only [Bool.false_eq_true, false_iff, not_le]
      exact hfar
  | some d =>
      simp only [decide_eq_true_eq]
      exact abs_le_tolerance_of_sub hsub

end Bookkeeping.Decimal
