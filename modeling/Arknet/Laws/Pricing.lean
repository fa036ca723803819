import Arknet.Payments.Pricing

/-!
The pricing oracle over its runs: the square root is exact, no step aborts, and the price moves from
the genesis price towards the raw price of each epoch without leaving its bounds.
-/

namespace Arknet.Laws

open Machine Arknet.Chain Arknet.Payments

/-! ## The square root -/

/-- `r` is the floor of the square root of `n`. -/
def IsFloorSqrt (n r : Nat) : Prop := r * r ≤ n ∧ n < (r + 1) * (r + 1)

theorem IsFloorSqrt.mono {m n r s : Nat} (hr : IsFloorSqrt m r) (hs : IsFloorSqrt n s) (h : m ≤ n) :
    r ≤ s := by
  have hlt : r * r < (s + 1) * (s + 1) := by have := hr.1; have := hs.2; omega
  have := Nat.mul_self_lt_mul_self_iff.mp hlt
  omega

theorem IsFloorSqrt.eq {n r s : Nat} (hr : IsFloorSqrt n r) (hs : IsFloorSqrt n s) : r = s :=
  Nat.le_antisymm (hr.mono hs (Nat.le_refl n)) (hs.mono hr (Nat.le_refl n))

/-- The root of `n` lies between the bounds of the bisection. -/
structure Bisecting (n lo hi : Nat) : Prop where
  pos : 1 ≤ lo
  le : lo ≤ hi
  above : lo * lo ≤ n
  below : n < (hi + 1) * (hi + 1)

/-- The middle of two words is a word. -/
theorem bisectMid_returns {lo hi : U128} (h : lo.val ≤ hi.val) : ∃ mid, bisectMid lo hi = .ok mid := by
  obtain ⟨gap, hgap⟩ := sub_isOk h
  have hg := sub_eq_ok.mp hgap
  have hhi := hi.isLt
  obtain ⟨mid, hmid⟩ := add_isOk (a := lo) (b := ⟨(gap.val + 1) / 2, by omega⟩) (by simp only; omega)
  exact ⟨mid, bind_eq_ok.mpr ⟨gap, hgap, hmid⟩⟩

/-- `mid ≤ n / mid` asks for the square of `mid` without computing it. -/
theorem Bisecting.upper {n lo hi mid : Nat} (h : Bisecting n lo hi) (hlo : lo ≤ mid) (hhi : mid ≤ hi)
    (hq : mid ≤ n / mid) : Bisecting n mid hi where
  pos := Nat.le_trans h.pos hlo
  le := hhi
  above := (Nat.le_div_iff_mul_le (Nat.le_trans h.pos hlo)).mp hq
  below := h.below

theorem Bisecting.lower {n lo hi mid : Nat} (h : Bisecting n lo hi) (hlo : lo < mid)
    (hq : ¬ mid ≤ n / mid) : Bisecting n lo (mid - 1) where
  pos := h.pos
  le := by omega
  above := h.above
  below := by
    have hpos : 0 < mid := by omega
    have hsq : n < mid * mid := by
      by_contra hle
      exact hq ((Nat.le_div_iff_mul_le hpos).mpr (Nat.le_of_not_lt hle))
    rwa [Nat.sub_add_cancel hpos]

theorem isqrtLoop_returns (n lo hi : U128) (h : Bisecting n.val lo.val hi.val) :
    ∃ r, isqrtLoop n lo hi = .ok r ∧ IsFloorSqrt n.val r.val := by
  fun_induction isqrtLoop n lo hi with
  | case1 lo hi hlt p hmid =>
    obtain ⟨mid, hok⟩ := bisectMid_returns h.le
    rw [hok] at hmid
    cases hmid
  | case2 lo hi hlt mid hmid p hq =>
    obtain ⟨-, hm⟩ := bisectMid_eq_ok hmid
    have hpos := h.pos
    obtain ⟨q, hok⟩ := div_isOk n (b := mid) (by omega)
    rw [hok] at hq
    cases hq
  | case3 lo hi hlt mid hmid q hq hle ih =>
    obtain ⟨-, hm⟩ := bisectMid_eq_ok hmid
    obtain ⟨-, hqv⟩ := div_eq_ok.mp hq
    exact ih (h.upper (by omega) (by omega) (hqv ▸ hle))
  | case4 lo hi hlt mid hmid q hq hle p hhi =>
    obtain ⟨-, hm⟩ := bisectMid_eq_ok hmid
    have hone : (1 : U128) ≤ mid := by
      have hpos := h.pos
      have : (1 : U128).val ≤ mid.val := by show 1 ≤ mid.val; omega
      exact this
    obtain ⟨hi', hok⟩ := sub_isOk hone
    rw [hok] at hhi
    cases hhi
  | case5 lo hi hlt mid hmid q hq hle hi' hhi ih =>
    obtain ⟨-, hm⟩ := bisectMid_eq_ok hmid
    obtain ⟨-, hqv⟩ := div_eq_ok.mp hq
    have hs : hi'.val + 1 = mid.val := sub_eq_ok.mp hhi
    have hlower : Bisecting n.val lo.val (mid.val - 1) := h.lower (by omega) (hqv ▸ hle)
    rw [← hs, Nat.add_sub_cancel] at hlower
    exact ih hlower
  | case6 lo hi hlt =>
    have heq : hi.val = lo.val := Nat.le_antisymm (Nat.le_of_not_lt hlt) h.le
    exact ⟨lo, rfl, h.above, heq ▸ h.below⟩

/-- No root of a word reaches `2 ^ 64`, so the bisection may start there. -/
theorem bisecting_start {n : Nat} (hlarge : 1 < n) (hn : n < 2 ^ 128) :
    Bisecting n 1 (min n (2 ^ 64)) where
  pos := Nat.le_refl 1
  le := by omega
  above := by omega
  below := by
    rcases Nat.le_total n (2 ^ 64) with h | h
    · rw [Nat.min_eq_left h]
      nlinarith
    · rw [Nat.min_eq_right h]
      omega

/-- The square root returns on every word, the largest included. -/
theorem isqrt_returns (n : U128) : ∃ r, isqrt n = .ok r ∧ IsFloorSqrt n.val r.val := by
  unfold isqrt
  split
  · rename_i hsmall
    refine ⟨n, rfl, ?_⟩
    rcases Nat.le_one_iff_eq_zero_or_eq_one.mp hsmall with h | h <;> simp [IsFloorSqrt, h]
  · rename_i hlarge
    apply isqrtLoop_returns
    rw [Fin.coe_min]
    exact bisecting_start (Nat.lt_of_not_le hlarge) n.isLt

theorem isqrt_priceScale : isqrt PRICE_SCALE = .ok 31622 := by
  obtain ⟨r, hr, hfloor⟩ := isqrt_returns PRICE_SCALE
  have hval : r.val = 31622 := hfloor.eq (s := 31622) (by unfold IsFloorSqrt PRICE_SCALE; decide)
  rw [hr, Fin.ext (b := (31622 : U128)) hval]

/-! ## The raw price -/

/-- The raw price as a quotient of exact products; the saturating ones do not saturate. -/
theorem computeRawPrice_genesis {u : U128} (h : u ≤ PRICE_SCALE) :
    ∃ raw r, computeRawPrice GENESIS_BASE_PRICE u = .ok raw ∧ IsFloorSqrt u.val r ∧
      raw.val = 10000 * u.val * r / (1000000000 * 31622) := by
  unfold computeRawPrice
  split
  · rename_i hzero
    exact ⟨0, 0, rfl, by simp [IsFloorSqrt, hzero], by simp⟩
  · obtain ⟨r, hr, hfloor⟩ := isqrt_returns u
    have hu : u.val ≤ 1000000000 := h
    have hroot : r.val ≤ 31622 :=
      hfloor.mono (n := 1000000000) (s := 31622) (by unfold IsFloorSqrt; decide) hu
    have hscaled : (satMul GENESIS_BASE_PRICE u).val = 10000 * u.val := by
      rw [satMul_val]
      show min (10000 * u.val) _ = _
      omega
    have hprod : 10000 * u.val * r.val ≤ 10000 * 1000000000 * 31622 :=
      Nat.mul_le_mul (Nat.mul_le_mul_left 10000 hu) hroot
    have hnum : (satMul (satMul GENESIS_BASE_PRICE u) r).val = 10000 * u.val * r.val := by
      rw [satMul_val, hscaled]
      omega
    have hden : (satMul PRICE_SCALE 31622).val = 1000000000 * 31622 := by decide
    obtain ⟨raw, hraw⟩ := div_isOk (satMul (satMul GENESIS_BASE_PRICE u) r)
      (b := satMul PRICE_SCALE 31622) (by rw [hden]; decide)
    refine ⟨raw, r.val, ?_, hfloor, ?_⟩
    · rw [hr, isqrt_priceScale]
      simp only [ok_bind]
      rw [if_neg (fun h0 => by rw [h0] at hden; cases hden), hraw]
    · rw [(div_eq_ok.mp hraw).2, hnum, hden]

theorem computeRawPrice_mono {u v : U128} (huv : u ≤ v) (hv : v ≤ PRICE_SCALE) :
    ∃ p q, computeRawPrice GENESIS_BASE_PRICE u = .ok p ∧ computeRawPrice GENESIS_BASE_PRICE v = .ok q ∧
      p ≤ q := by
  obtain ⟨p, r, hp, hr, hpv⟩ := computeRawPrice_genesis (Fin.le_trans huv hv)
  obtain ⟨q, t, hq, ht, hqv⟩ := computeRawPrice_genesis hv
  refine ⟨p, q, hp, hq, ?_⟩
  have hroot : r ≤ t := hr.mono ht huv
  have hprod : 10000 * u.val * r ≤ 10000 * v.val * t := Nat.mul_le_mul (Nat.mul_le_mul_left 10000 huv) hroot
  show p.val ≤ q.val
  rw [hpv, hqv]
  exact Nat.div_le_div_right hprod

/-- At full use the raw price is the base price. -/
theorem computeRawPrice_full : computeRawPrice GENESIS_BASE_PRICE PRICE_SCALE = .ok GENESIS_BASE_PRICE := by
  obtain ⟨raw, r, hraw, hr, hval⟩ := computeRawPrice_genesis (Fin.le_refl PRICE_SCALE)
  have hroot : r = 31622 := hr.eq (s := 31622) (by unfold IsFloorSqrt PRICE_SCALE; decide)
  have hfull : raw = GENESIS_BASE_PRICE := Fin.ext (by rw [hval, hroot]; rfl)
  rw [hraw, hfull]

theorem computeRawPrice_le {u : U128} (h : u ≤ PRICE_SCALE) :
    ∃ raw, computeRawPrice GENESIS_BASE_PRICE u = .ok raw ∧ raw ≤ GENESIS_BASE_PRICE := by
  obtain ⟨p, q, hp, hq, hle⟩ := computeRawPrice_mono h (Fin.le_refl PRICE_SCALE)
  rw [computeRawPrice_full] at hq
  obtain rfl := Except.ok.inj hq
  exact ⟨p, hp, hle⟩

/-! ## The moving average -/

/-- An average whose weights add up lies between what it averages, rounded down or not. -/
theorem weighted_between {a b v w total : Nat} (htotal : v + w = total) (hpos : 0 < total) :
    min a b ≤ (a * v + b * w) / total ∧ (a * v + b * w) / total ≤ max a b := by
  constructor
  · rw [Nat.le_div_iff_mul_le hpos, ← htotal, Nat.mul_add]
    exact Nat.add_le_add (Nat.mul_le_mul_right v (Nat.min_le_left a b))
      (Nat.mul_le_mul_right w (Nat.min_le_right a b))
  · apply Nat.div_le_of_le_mul
    rw [← htotal, Nat.add_mul, Nat.mul_comm v, Nat.mul_comm w]
    exact Nat.add_le_add (Nat.mul_le_mul_right v (Nat.le_max_left a b))
      (Nat.mul_le_mul_right w (Nat.le_max_right a b))

theorem adaptiveEmaWeights_returns {current new : Amount} (hcurrent : current ≤ PRICE_CEILING)
    (hnew : new ≤ PRICE_CEILING) :
    ∃ w, adaptiveEmaWeights current new = .ok w ∧ w.1.val + w.2.val = 10000 := by
  unfold adaptiveEmaWeights
  split
  · exact ⟨_, rfl, rfl⟩
  · rename_i hne
    have hc : current.val ≤ 10000000 := hcurrent
    have hn : new.val ≤ 10000000 := hnew
    obtain ⟨delta, hdelta, hle⟩ : ∃ delta, (if current < new then sub new current else sub current new) =
        .ok delta ∧ delta.val ≤ 10000000 := by
      split
      · rename_i hlt
        obtain ⟨d, hd⟩ := sub_isOk (Fin.le_of_lt hlt)
        exact ⟨d, hd, by have := sub_eq_ok.mp hd; omega⟩
      · rename_i hge
        obtain ⟨d, hd⟩ := sub_isOk (Fin.not_lt.mp hge)
        exact ⟨d, hd, by have := sub_eq_ok.mp hd; omega⟩
    have hfits : delta.val * (10000 : U128).val < 2 ^ 128 := by
      show delta.val * 10000 < _
      omega
    obtain ⟨scaled, hscaled⟩ := returns_mul.mpr hfits
    obtain ⟨pct, hpct⟩ := div_isOk scaled (b := current) (fun h0 => hne (Fin.ext h0))
    rw [hdelta, ok_bind, hscaled, ok_bind, hpct, ok_bind]
    split
    · exact ⟨_, rfl, rfl⟩
    · split
      · exact ⟨_, rfl, rfl⟩
      · exact ⟨_, rfl, rfl⟩

theorem emaSmoothWeighted_returns {current new : Amount} {wCurrent wNew : U64}
    (hcurrent : current ≤ PRICE_CEILING) (hnew : new ≤ PRICE_CEILING)
    (hw : wCurrent.val + wNew.val = 10000) :
    ∃ price, emaSmoothWeighted current new wCurrent wNew = .ok price ∧
      min current new ≤ price ∧ price ≤ max current new := by
  have hc : current.val ≤ 10000000 := hcurrent
  have hn : new.val ≤ 10000000 := hnew
  have hcw : current.val * wCurrent.val ≤ 10000000 * 10000 := Nat.mul_le_mul hc (by omega)
  have hnw : new.val * wNew.val ≤ 10000000 * 10000 := Nat.mul_le_mul hn (by omega)
  obtain ⟨c, hcok⟩ := returns_mul.mpr (show current.val * (asAmount wCurrent).val < 2 ^ 128 by
    rw [asAmount_val]
    omega)
  obtain ⟨n, hnok⟩ := returns_mul.mpr (show new.val * (asAmount wNew).val < 2 ^ 128 by
    rw [asAmount_val]
    omega)
  have hcv := mul_eq_ok.mp hcok
  have hnv := mul_eq_ok.mp hnok
  rw [asAmount_val] at hcv hnv
  obtain ⟨total, htotal⟩ := add_isOk (a := c) (b := n) (by rw [hcv, hnv]; omega)
  obtain ⟨price, hprice⟩ := div_isOk total (b := (10000 : U128)) (by decide)
  refine ⟨price, ?_, ?_⟩
  · unfold emaSmoothWeighted
    rw [hcok, ok_bind, hnok, ok_bind, htotal, ok_bind, hprice]
  · have hval : price.val = (current.val * wCurrent.val + new.val * wNew.val) / 10000 := by
      rw [(div_eq_ok.mp hprice).2, add_eq_ok.mp htotal, hcv, hnv]
      rfl
    have hbetween := weighted_between (a := current.val) (b := new.val) hw (by decide)
    rw [← hval] at hbetween
    rw [Fin.le_def, Fin.le_def, Fin.coe_min, Fin.coe_max]
    exact hbetween

/-! ## Runs -/

theorem utilizationScaled_returns (s : PricingState) :
    ∃ util, s.utilizationScaled = .ok util ∧ util ≤ PRICE_SCALE := by
  unfold PricingState.utilizationScaled
  split
  · exact ⟨0, rfl, Fin.zero_le _⟩
  · rename_i hne
    obtain ⟨raw, hraw⟩ := div_isOk (satMul (asAmount s.epochJobs) PRICE_SCALE)
      (b := asAmount s.epochCapacity) (fun h0 => hne (Fin.ext h0))
    refine ⟨min raw PRICE_SCALE, ?_, Fin.le_def.mpr ?_⟩
    · rw [hraw, ok_bind]
      rfl
    · rw [Fin.coe_min]
      exact Nat.min_le_right _ _

/-- One epoch from a price within its bounds. -/
theorem advanceEpoch_returns {s : PricingState} (h : s.price ≤ PRICE_CEILING)
    (newEpoch newCapacity : U64) :
    ∃ util raw s', s.utilizationScaled = .ok util ∧ computeRawPrice GENESIS_BASE_PRICE util = .ok raw ∧
      s.advanceEpoch newEpoch newCapacity = .ok s' ∧ min s.price raw ≤ s'.price ∧
      s'.price ≤ max s.price raw ∧ s'.price ≤ PRICE_CEILING := by
  obtain ⟨util, hutil, hfull⟩ := utilizationScaled_returns s
  obtain ⟨raw, hraw, hle⟩ := computeRawPrice_le hfull
  have hceil : raw ≤ PRICE_CEILING := Fin.le_trans hle (by decide)
  have hmax : max s.price raw ≤ PRICE_CEILING := max_le h hceil
  by_cases hepoch : newEpoch ≤ s.epoch
  · exact ⟨util, raw, s, hutil, hraw, if_pos hepoch, min_le_left _ _, le_max_left _ _, h⟩
  · obtain ⟨⟨wCurrent, wNew⟩, hweights, hsum⟩ := adaptiveEmaWeights_returns h hceil
    obtain ⟨price, hprice, hlow, hhigh⟩ := emaSmoothWeighted_returns h hceil hsum
    have hclamp : min (max price PRICE_FLOOR) PRICE_CEILING = price := by
      have hfloor : PRICE_FLOOR ≤ price := Fin.zero_le price
      rw [max_eq_left hfloor, min_eq_left (Fin.le_trans hhigh hmax)]
    refine ⟨util, raw, ⟨price, 0, max newCapacity 1, newEpoch⟩, hutil, hraw, ?_, hlow, hhigh,
      Fin.le_trans hhigh hmax⟩
    unfold PricingState.advanceEpoch
    rw [if_neg hepoch, hutil, ok_bind, hraw, ok_bind, hweights, ok_bind]
    simp only
    rw [hprice, ok_bind, hclamp]
    rfl

theorem call_returns {s : PricingState} (h : s.price ≤ PRICE_CEILING) (c : PricingCall) :
    ∃ s', s.call c = .ok s' ∧ s'.price ≤ PRICE_CEILING := by
  cases c with
  | recordJob => exact ⟨s.recordJob, rfl, h⟩
  | advanceEpoch newEpoch newCapacity =>
    obtain ⟨-, -, s', -, -, hs', -, -, hle⟩ := advanceEpoch_returns h newEpoch newCapacity
    exact ⟨s', hs', hle⟩

theorem calls_return {s : PricingState} (h : s.price ≤ PRICE_CEILING) (calls : List PricingCall) :
    ∃ s', calls.foldlM PricingState.call s = .ok s' ∧ s'.price ≤ PRICE_CEILING := by
  induction calls generalizing s with
  | nil => exact ⟨s, rfl, h⟩
  | cons c calls ih =>
    obtain ⟨t, ht, hle⟩ := call_returns h c
    obtain ⟨s', hs', hle'⟩ := ih hle
    exact ⟨s', by rw [List.foldlM_cons, ht, ok_bind, hs'], hle'⟩

/-- Every run from genesis returns with a price in range, and wherever it leads an epoch moves the price
no further than the raw price; the raw price grows with the use up to the base price, and the root under
it is the floor of the square root on every word. -/
theorem pricing_oracle :
    (∀ calls : List PricingCall, ∃ s, calls.foldlM PricingState.call .genesis = .ok s ∧
      PRICE_FLOOR ≤ s.price ∧ s.price ≤ PRICE_CEILING ∧
      ∀ newEpoch newCapacity, ∃ util raw s', s.utilizationScaled = .ok util ∧
        computeRawPrice GENESIS_BASE_PRICE util = .ok raw ∧
        s.advanceEpoch newEpoch newCapacity = .ok s' ∧
        min s.price raw ≤ s'.price ∧ s'.price ≤ max s.price raw) ∧
    (∀ u v : U128, u ≤ v → v ≤ PRICE_SCALE → ∃ p q, computeRawPrice GENESIS_BASE_PRICE u = .ok p ∧
      computeRawPrice GENESIS_BASE_PRICE v = .ok q ∧ p ≤ q ∧ q ≤ GENESIS_BASE_PRICE) ∧
    (∀ n : U128, ∃ r, isqrt n = .ok r ∧ r.val * r.val ≤ n.val ∧ n.val < (r.val + 1) * (r.val + 1)) := by
  refine ⟨fun calls => ?_, fun u v huv hv => ?_, isqrt_returns⟩
  · obtain ⟨s, hs, hle⟩ := calls_return (s := .genesis) (by decide) calls
    refine ⟨s, hs, Fin.zero_le _, hle, fun newEpoch newCapacity => ?_⟩
    obtain ⟨util, raw, s', hutil, hraw, hs', hlow, hhigh, -⟩ := advanceEpoch_returns hle newEpoch newCapacity
    exact ⟨util, raw, s', hutil, hraw, hs', hlow, hhigh⟩
  · obtain ⟨p, q, hp, hq, hle⟩ := computeRawPrice_mono huv hv
    obtain ⟨q', hq', hbase⟩ := computeRawPrice_le hv
    obtain rfl := Except.ok.inj (hq'.symm.trans hq)
    exact ⟨p, q', hp, hq, hle, hbase⟩

/-- A used epoch, and half the capacity against all of it. -/
theorem pricing_oracle_halfUse :
    (∃ s, [PricingCall.recordJob, .advanceEpoch 1 2, .recordJob].foldlM PricingState.call .genesis = .ok s ∧
      s.price ≤ PRICE_CEILING) ∧
    (∃ p q, computeRawPrice GENESIS_BASE_PRICE 500000000 = .ok p ∧
      computeRawPrice GENESIS_BASE_PRICE PRICE_SCALE = .ok q ∧ p ≤ q ∧ q ≤ GENESIS_BASE_PRICE) := by
  obtain ⟨hruns, hraw, -⟩ := pricing_oracle
  obtain ⟨s, hs, -, hceil, -⟩ := hruns [.recordJob, .advanceEpoch 1 2, .recordJob]
  exact ⟨⟨s, hs, hceil⟩, hraw 500000000 PRICE_SCALE (by decide) (by decide)⟩

end Arknet.Laws
