import ParLoop.Double.Text
import ParLoop.Proofs.Double.Nearest

/-!
# The shortest decimal reads back

With seventeen digits one of the two neighbours of a double on the decimal grid is so near that it
reads back (`exists_onGrid`), so that the search for the shortest decimal finds one
(`magnitudeOf_shortest`).
-/

namespace ParLoop.Double

variable {n : Nat}

/-! ### The leading digit -/

theorem one_pos : 0 < one := by decide +kernel

theorem units_lt (h : n < infinity) : units n < 2 ^ 1024 * one := by
  obtain ⟨m, s, hunits, hn, hm, hnormal⟩ := exists_units n
  have hs : s ≤ 2045 := by
    obtain rfl | hnormal := hnormal
    · exact Nat.zero_le _
    · -- A normal double has at least `s + 1` binades below it, an infinite one has 2047.
      have hlt : (s + 1) * binade < 2047 * binade := by
        have hbinade : binade ≤ m := hnormal
        calc (s + 1) * binade = s * binade + binade := Nat.succ_mul s binade
          _ ≤ n := hn ▸ Nat.add_le_add_left hbinade _
          _ < 2047 * binade := h
      have hlt := Nat.lt_of_mul_lt_mul_right hlt
      omega
  calc units n = m * 2 ^ s := hunits
    _ < 2 ^ 53 * 2 ^ s := Nat.mul_lt_mul_of_pos_right hm (Nat.pow_pos (by decide))
    _ ≤ 2 ^ 53 * 2 ^ 2045 := Nat.mul_le_mul_left _ (Nat.pow_le_pow_right (by decide) hs)
    _ = 2 ^ 1024 * one := by decide +kernel

theorem pow_digitCount_le (hn : 0 < n) : 10 ^ (digitCount n - 1) ≤ n := by
  by_cases hone : digitCount n - 1 = 0
  · rw [hone]
    exact hn
  · have hlt : ¬digitCount n ≤ digitCount n - 1 := by omega
    rw [digitCount_le_iff (by omega)] at hlt
    omega

theorem lt_pow_digitCount (n : Nat) : n < 10 ^ digitCount n :=
  (digitCount_le_iff (digitCount_pos n)).1 (Nat.le_refl _)

/-- The power of ten of the leading digit is not larger than the value. -/
theorem pow_leadingExponent_le (hn : 0 < n) :
    one * 10 ^ (leadingExponent n).toNat ≤ units n * 10 ^ (-leadingExponent n).toNat := by
  unfold leadingExponent
  split
  case isTrue h =>
    have hdigit := pow_digitCount_le (Nat.div_pos h one_pos)
    have hpos := digitCount_pos (units n / one)
    have hlead : ((digitCount (units n / one) : Int) - 1).toNat =
        digitCount (units n / one) - 1 := by omega
    have hneg : (-((digitCount (units n / one) : Int) - 1)).toNat = 0 := by omega
    rw [hlead, hneg, Nat.pow_zero, Nat.mul_one, Nat.mul_comm]
    exact (Nat.le_div_iff_mul_le one_pos).1 hdigit
  case isFalse h =>
    have hdigit := lt_pow_digitCount ((one - 1) / units n)
    rw [Nat.div_lt_iff_lt_mul (units_pos hn)] at hdigit
    have hlead : (-(digitCount ((one - 1) / units n) : Int)).toNat = 0 := by omega
    have hneg : (- -(digitCount ((one - 1) / units n) : Int)).toNat =
        digitCount ((one - 1) / units n) := by omega
    rw [hlead, hneg, Nat.pow_zero, Nat.mul_one, Nat.mul_comm (units n)]
    omega

theorem leadingExponent_le (h : n < infinity) : leadingExponent n ≤ 308 := by
  unfold leadingExponent
  split
  case isTrue =>
    have hcount : digitCount (units n / one) ≤ 309 := by
      rw [digitCount_le_iff (by decide), Nat.div_lt_iff_lt_mul one_pos]
      have hpow : 2 ^ 1024 * one ≤ 10 ^ 309 * one :=
        Nat.mul_le_mul_right _ (by decide +kernel)
      exact Nat.lt_of_lt_of_le (units_lt h) hpow
    omega
  case isFalse => omega

theorem le_leadingExponent (n : Nat) : -324 ≤ leadingExponent n := by
  unfold leadingExponent
  split
  case isTrue => omega
  case isFalse =>
    have hcount : digitCount ((one - 1) / units n) ≤ 324 := by
      rw [digitCount_le_iff (by decide)]
      refine Nat.lt_of_le_of_lt (Nat.div_le_self _ _) ?_
      decide +kernel
    omega

/-! ### Grids -/

/-- The quotient of a value by a power of ten has its leading digit where the grid says. -/
theorem pow_le_quotient (hn : 0 < n) (p : Nat) :
    10 ^ p * (one * 10 ^ (leadingExponent n - p).toNat) ≤
      units n * 10 ^ (-(leadingExponent n - p)).toNat := by
  have hlead := pow_leadingExponent_le hn
  generalize leadingExponent n = lead at hlead ⊢
  have hexponent : p + (lead - p).toNat + (-lead).toNat = lead.toNat + (-(lead - p)).toNat := by
    omega
  have hpow := congrArg (10 ^ ·) hexponent
  simp only [Nat.pow_add] at hpow
  -- Of each exponent and its opposite one is cut off at zero, so both sides are scaled first.
  refine Nat.le_of_mul_le_mul_right ?_ (Nat.pow_pos (by decide : 0 < 10) (n := (-lead).toNat))
  calc 10 ^ p * (one * 10 ^ (lead - p).toNat) * 10 ^ (-lead).toNat
      = one * (10 ^ p * 10 ^ (lead - p).toNat * 10 ^ (-lead).toNat) := by ring
    _ = one * 10 ^ lead.toNat * 10 ^ (-(lead - p)).toNat := by rw [hpow]; ring
    _ ≤ units n * 10 ^ (-lead).toNat * 10 ^ (-(lead - p)).toNat :=
      Nat.mul_le_mul_right _ hlead
    _ = units n * 10 ^ (-(lead - p)).toNat * 10 ^ (-lead).toNat := by ring

/-- The value of a magnitude in whole steps of a grid. -/
def steps (n : Nat) (e : Int) : Nat := units n * 10 ^ (-e).toNat / (one * 10 ^ e.toNat)

/-- What is found on a grid reads back and is a neighbour of the value there. -/
theorem onGrid_eq_some {tie : Tie} {e : Int} {d : Decimal} (h : onGrid tie n e = some d) :
    magnitudeOf d = n ∧ d.exponent = e ∧ d.coefficient ≤ steps n e + 1 := by
  have hfound (k : Nat) (hk : k ≤ 1) (hm : (magnitudeOf ⟨steps n e + k, e⟩ == n) = true)
      (hd : some ⟨steps n e + k, e⟩ = some d) :
      magnitudeOf d = n ∧ d.exponent = e ∧ d.coefficient ≤ steps n e + 1 := by
    cases hd
    exact ⟨beq_iff_eq.1 hm, rfl, Nat.add_le_add_left hk _⟩
  unfold onGrid at h
  dsimp only at h
  split at h
  case h_1 hbelow habove =>
    split at h
    · exact hfound 0 (by decide) hbelow h
    · split at h
      · exact hfound 1 (by decide) habove h
      · split at h
        · exact hfound 1 (by decide) habove h
        · split at h
          · exact hfound 0 (by decide) hbelow h
          · exact hfound 1 (by decide) habove h
  case h_2 hbelow _ => exact hfound 0 (by decide) hbelow h
  case h_3 _ habove => exact hfound 1 (by decide) habove h
  case h_4 => cases h

theorem isSome_onGrid {tie : Tie} {e : Int}
    (h : magnitudeOf ⟨steps n e, e⟩ = n ∨ magnitudeOf ⟨steps n e + 1, e⟩ = n) :
    (onGrid tie n e).isSome = true := by
  unfold onGrid
  dsimp only
  split
  case h_1 =>
    split
    · rfl
    · split
      · rfl
      · split <;> rfl
  case h_2 => rfl
  case h_3 => rfl
  case h_4 hbelow habove =>
    obtain h | h := h
    · exact absurd h (ne_of_beq_false hbelow)
    · exact absurd h (ne_of_beq_false habove)

/-- On the grid of seventeen digits, what is not farther from a value than half a step reads back
as it. -/
theorem magnitudeOf_of_near (hpos : 0 < n) (hn : n < infinity) {c : Nat} {e : Int}
    (he : e = leadingExponent n - (16 : Nat)) (hc : steps n e ≤ c)
    (hlow : 2 * (units n * 10 ^ (-e).toNat) ≤
      2 * (c * (one * 10 ^ e.toNat)) + one * 10 ^ e.toNat)
    (hhigh : 2 * (c * (one * 10 ^ e.toNat)) ≤
      2 * (units n * 10 ^ (-e).toNat) + one * 10 ^ e.toNat) :
    magnitudeOf ⟨c, e⟩ = n := by
  have hlead := pow_le_quotient hpos 16
  rw [← he] at hlead
  have hstep : 0 < one * 10 ^ e.toNat := Nat.mul_pos one_pos (Nat.pow_pos (by decide))
  have hsteps : 10 ^ 16 ≤ steps n e := (Nat.le_div_iff_mul_le hstep).2 hlead
  have hcount : ¬digitCount c ≤ 16 := by
    rw [digitCount_le_iff (by decide)]
    omega
  have hle := le_leadingExponent n
  have hle' := leadingExponent_le hn
  rw [magnitudeOf_eq_nearest (by omega) (by omega) (by omega)]
  have hnum : c * 10 ^ e.toNat * one = c * (one * 10 ^ e.toNat) := by ring
  rw [hnum]
  refine nearest_eq_of_close hn ?_ ?_
  · omega
  · omega

/-- Seventeen digits suffice. -/
theorem exists_onGrid (hpos : 0 < n) (hn : n < infinity) (tie : Tie) :
    (onGrid tie n (leadingExponent n - (16 : Nat))).isSome = true := by
  refine isSome_onGrid ?_
  generalize he : leadingExponent n - ((16 : Nat) : Int) = e
  have hstep : 0 < one * 10 ^ e.toNat := Nat.mul_pos one_pos (Nat.pow_pos (by decide))
  have hdiv : steps n e * (one * 10 ^ e.toNat) +
      units n * 10 ^ (-e).toNat % (one * 10 ^ e.toNat) = units n * 10 ^ (-e).toNat :=
    Nat.div_add_mod' _ _
  have hmod := Nat.mod_lt (units n * 10 ^ (-e).toNat) hstep
  -- The nearer of the two neighbours is at most half a step away.
  by_cases hhalf : 2 * (units n * 10 ^ (-e).toNat % (one * 10 ^ e.toNat)) ≤ one * 10 ^ e.toNat
  · exact Or.inl (magnitudeOf_of_near hpos hn he.symm (Nat.le_refl _) (by omega) (by omega))
  · have habove : (steps n e + 1) * (one * 10 ^ e.toNat) =
        steps n e * (one * 10 ^ e.toNat) + one * 10 ^ e.toNat := Nat.succ_mul _ _
    exact Or.inr (magnitudeOf_of_near hpos hn he.symm (Nat.le_succ _) (by omega) (by omega))

/-! ### The search -/

/-- What is found for a finite magnitude lies on a grid of at most seventeen digits. -/
theorem exists_shortest (hpos : 0 < n) (hn : n < infinity) (tie : Tie) :
    ∃ p : Nat, onGrid tie n (leadingExponent n - p) = some (shortest tie n) := by
  have hsome : ((List.range 17).findSome? fun p : Nat =>
      onGrid tie n (leadingExponent n - p)).isSome = true := by
    rw [List.findSome?_isSome_iff]
    exact ⟨16, by decide, exists_onGrid hpos hn tie⟩
  obtain ⟨d, hd⟩ := Option.isSome_iff_exists.1 hsome
  obtain ⟨p, -, hp⟩ := List.exists_of_findSome?_eq_some hd
  have hshortest : shortest tie n = d := by
    unfold shortest
    dsimp only
    rw [hd]
    rfl
  exact ⟨p, hshortest ▸ hp⟩

/-- The shortest decimal reads back. -/
theorem magnitudeOf_shortest (hpos : 0 < n) (hn : n < infinity) (tie : Tie) :
    magnitudeOf (shortest tie n) = n := by
  obtain ⟨p, hp⟩ := exists_shortest hpos hn tie
  exact (onGrid_eq_some hp).1

theorem coefficient_shortest_ne_zero (hpos : 0 < n) (hn : n < infinity) (tie : Tie) :
    (shortest tie n).coefficient ≠ 0 := by
  intro hzero
  have hread := magnitudeOf_shortest hpos hn tie
  rw [magnitudeOf, if_pos hzero] at hread
  omega

/-- Without its trailing zeros the shortest decimal still has an exponent that can be read. -/
theorem exponent_shortest_lt (hpos : 0 < n) (hn : n < infinity) (tie : Tie) {c z : Nat}
    (hc : c ≠ 0) (hcoefficient : (shortest tie n).coefficient = c * 10 ^ z) :
    (shortest tie n).exponent + z < 310 := by
  obtain ⟨p, hp⟩ := exists_shortest hpos hn tie
  obtain ⟨-, hexponent, hle⟩ := onGrid_eq_some hp
  rw [hexponent]
  have hlead := pow_le_quotient hpos p
  rw [hcoefficient] at hle
  generalize leadingExponent n - (p : Int) = e at hlead hle ⊢
  have hstep : 0 < one * 10 ^ e.toNat := Nat.mul_pos one_pos (Nat.pow_pos (by decide))
  have hsteps : 1 ≤ steps n e := by
    have hpow : 1 ≤ 10 ^ p := Nat.pow_pos (by decide)
    exact Nat.le_trans hpow ((Nat.le_div_iff_mul_le hstep).2 hlead)
  -- The bound is kept as a variable: `10 ^ 309` must not be evaluated below.
  obtain ⟨k, hk, hlimit⟩ : ∃ k, k = 309 ∧ 2 * 2 ^ 1024 ≤ 10 ^ k := ⟨309, rfl, by decide +kernel⟩
  have hlt : 10 ^ (z + e.toNat) * one < 10 ^ (k + (-e).toNat) * one := by
    calc 10 ^ (z + e.toNat) * one = 1 * 10 ^ z * (one * 10 ^ e.toNat) := by ring
      _ ≤ c * 10 ^ z * (one * 10 ^ e.toNat) :=
        Nat.mul_le_mul_right _ (Nat.mul_le_mul_right _ (Nat.pos_of_ne_zero hc))
      _ ≤ 2 * steps n e * (one * 10 ^ e.toNat) := Nat.mul_le_mul_right _ (by omega)
      _ = 2 * (steps n e * (one * 10 ^ e.toNat)) := Nat.mul_assoc ..
      _ ≤ 2 * (units n * 10 ^ (-e).toNat) := Nat.mul_le_mul_left _ (Nat.div_mul_le_self _ _)
      _ < 2 * (2 ^ 1024 * one * 10 ^ (-e).toNat) := by
        have hunits := Nat.mul_lt_mul_of_pos_right (units_lt hn)
          (Nat.pow_pos (by decide : 0 < 10) (n := (-e).toNat))
        omega
      _ = 2 * 2 ^ 1024 * (one * 10 ^ (-e).toNat) := by
        rw [Nat.mul_assoc (2 ^ 1024), ← Nat.mul_assoc 2]
      _ ≤ 10 ^ k * (one * 10 ^ (-e).toNat) := Nat.mul_le_mul_right _ hlimit
      _ = 10 ^ (k + (-e).toNat) * one := by ring
  have hlt := (Nat.pow_lt_pow_iff_right (by decide)).1 (Nat.lt_of_mul_lt_mul_right hlt)
  omega

end ParLoop.Double
