import Mathlib.Tactic.Linarith

set_option autoImplicit false

namespace Lemming.Forwarding

structure Ratelimit where
  burst : UInt64
  rate : UInt64
  last : Int
  tokens : UInt64
  running : Bool
deriving DecidableEq

namespace Ratelimit

def second : UInt64 := 1000000000

def sub (now last : Int) : Int :=
  max (-2 ^ 63) (min (now - last) (2 ^ 63 - 1))

def build (burst rate : UInt64) (now : Int) : Ratelimit where
  burst
  rate
  last := now
  tokens := 0
  running := false

variable (r : Ratelimit)

def product (now : Int) : UInt64 :=
  r.rate * UInt64.ofInt (sub now r.last)

def updateTokens (now : Int) : UInt64 :=
  if r.running then r.product now / second else r.burst

def available (now : Int) : UInt64 :=
  if r.running then
    let tokens := r.tokens + r.updateTokens now
    if tokens > r.burst then r.burst else tokens
  else r.burst

def allowed (now : Int) (length : UInt64) : Bool × Ratelimit :=
  if length > r.available now then (false, r)
  else
    (true, { r with
      tokens := r.available now - length
      last := if r.updateTokens now ≠ 0 then now else r.last
      running := true })

def run (r : Ratelimit) : List (Int × UInt64) → Ratelimit
  | [] => r
  | (now, length) :: rest => (r.allowed now length).2.run rest

def admitted (r : Ratelimit) : List (Int × UInt64) → Nat
  | [] => 0
  | (now, length) :: rest =>
    (if (r.allowed now length).1 then length.toNat else 0) + (r.allowed now length).2.admitted rest

def Ordered : Int → List (Int × UInt64) → Prop
  | _, [] => True
  | time, (now, _) :: rest => time ≤ now ∧ Ordered now rest

def lastTime : Int → List (Int × UInt64) → Int
  | time, [] => time
  | _, (now, _) :: rest => lastTime now rest

structure Sound (r : Ratelimit) (time : Int) : Prop where
  last : r.last ≤ time
  tokens : r.tokens ≤ r.burst

variable {r} {time now : Int} {length : UInt64} {calls before window : List (Int × UInt64)}

theorem available_le (r : Ratelimit) (now : Int) : r.available now ≤ r.burst := by
  unfold available
  split
  · dsimp only
    split
    · exact UInt64.le_refl _
    · next within => exact UInt64.not_lt.mp within
  · exact UInt64.le_refl _

theorem allowed_cases (r : Ratelimit) (now : Int) (length : UInt64) :
    (r.available now < length ∧ r.allowed now length = (false, r)) ∨
      length ≤ r.available now ∧ (r.allowed now length).1 = true ∧
        (r.allowed now length).2.burst = r.burst ∧ (r.allowed now length).2.rate = r.rate ∧
        (r.allowed now length).2.running = true ∧
        (r.allowed now length).2.tokens.toNat + length.toNat = (r.available now).toNat ∧
        (r.allowed now length).2.last = if r.updateTokens now ≠ 0 then now else r.last := by
  by_cases beyond : length > r.available now
  · exact Or.inl ⟨beyond, if_pos beyond⟩
  · have within := UInt64.not_lt.mp beyond
    rw [allowed, if_neg beyond]
    refine Or.inr ⟨within, rfl, rfl, rfl, rfl, ?_, rfl⟩
    rw [UInt64.toNat_sub_of_le _ _ within]
    exact Nat.sub_add_cancel (UInt64.le_iff_toNat_le.mp within)

theorem Sound.allowed (sound : r.Sound time) (later : time ≤ now) (length : UInt64) :
    (r.allowed now length).2.Sound now := by
  have before := sound.last.trans later
  rcases r.allowed_cases now length with ⟨-, same⟩ | ⟨-, -, burst, -, -, spent, last⟩
  · rw [same]
    exact ⟨before, sound.tokens⟩
  · refine ⟨?_, ?_⟩
    · rw [last]
      split
      · exact le_refl now
      · exact before
    · have below := UInt64.le_iff_toNat_le.mp (r.available_le now)
      rw [burst, UInt64.le_iff_toNat_le]
      omega

theorem build_sound (burst rate : UInt64) (now : Int) : (build burst rate now).Sound now :=
  ⟨le_refl now, UInt64.le_iff_toNat_le.mpr (Nat.zero_le _)⟩

theorem allowed_config (r : Ratelimit) (now : Int) (length : UInt64) :
    (r.allowed now length).2.burst = r.burst ∧ (r.allowed now length).2.rate = r.rate := by
  unfold Ratelimit.allowed
  split <;> exact ⟨rfl, rfl⟩

theorem run_config (r : Ratelimit) (calls : List (Int × UInt64)) :
    (r.run calls).burst = r.burst ∧ (r.run calls).rate = r.rate := by
  induction calls generalizing r with
  | nil => exact ⟨rfl, rfl⟩
  | cons call rest ih =>
    obtain ⟨now, length⟩ := call
    obtain ⟨burst, rate⟩ := ih (r.allowed now length).2
    exact ⟨burst.trans (r.allowed_config now length).1, rate.trans (r.allowed_config now length).2⟩

theorem Sound.run (sound : r.Sound time) (ordered : Ordered time calls) :
    (r.run calls).Sound (lastTime time calls) := by
  induction calls generalizing r time with
  | nil => exact sound
  | cons call rest ih => exact ih (sound.allowed ordered.1 call.2) ordered.2

theorem Ordered.append (ordered : Ordered time (before ++ window)) :
    Ordered time before ∧ Ordered (lastTime time before) window := by
  induction before generalizing time with
  | nil => exact ⟨trivial, ordered⟩
  | cons call rest ih => exact ⟨⟨ordered.1, (ih ordered.2).1⟩, (ih ordered.2).2⟩

theorem Ordered.le_lastTime (ordered : Ordered time calls) : time ≤ lastTime time calls := by
  induction calls generalizing time with
  | nil => exact le_refl time
  | cons call rest ih => exact ordered.1.trans (ih ordered.2)

theorem toNat_interval {last : Int} (later : last ≤ now) :
    (UInt64.ofInt (sub now last)).toNat = min (now - last).toNat (2 ^ 63 - 1) := by
  have bounds : 0 ≤ sub now last ∧ sub now last < 2 ^ 64 := by
    unfold sub
    omega
  have same : (UInt64.ofInt (sub now last)).toNat = (sub now last).toNat := by
    rw [UInt64.ofInt, Int.emod_eq_of_lt bounds.1 bounds.2, UInt64.toNat_ofNat']
    exact Nat.mod_eq_of_lt (by omega)
  rw [same]
  unfold sub
  omega

theorem product_toNat (later : r.last ≤ now) :
    (r.product now).toNat = r.rate.toNat * min (now - r.last).toNat (2 ^ 63 - 1) % 2 ^ 64 := by
  rw [product, UInt64.toNat_mul, toNat_interval later]

theorem product_le (before : r.last ≤ time) (later : time ≤ now) :
    (r.product now).toNat ≤ (r.product time).toNat + r.rate.toNat * (now - time).toNat := by
  obtain ⟨more, isMore, few⟩ : ∃ more, min (now - r.last).toNat (2 ^ 63 - 1) =
      min (time - r.last).toNat (2 ^ 63 - 1) + more ∧ more ≤ (now - time).toNat :=
    ⟨min (now - r.last).toNat (2 ^ 63 - 1) - min (time - r.last).toNat (2 ^ 63 - 1),
      by omega, by omega⟩
  rw [product_toNat (before.trans later), product_toNat before, isMore, Nat.mul_add,
    ← Nat.mod_add_mod]
  exact (Nat.mod_le _ _).trans (Nat.add_le_add_left (Nat.mul_le_mul_left _ few) _)

theorem product_last (same : r.last = now) : (r.product now).toNat = 0 := by
  rw [product_toNat (le_of_eq same), same]
  simp

theorem available_toNat_le (running : r.running = true) (now : Int) :
    (r.available now).toNat ≤ r.tokens.toNat + (r.updateTokens now).toNat ∧
      (r.updateTokens now).toNat * second.toNat ≤ (r.product now).toNat := by
  constructor
  · have wrapped : (r.tokens + r.updateTokens now).toNat ≤
        r.tokens.toNat + (r.updateTokens now).toNat := by
      rw [UInt64.toNat_add]
      exact Nat.mod_le _ _
    rw [available, if_pos running]
    dsimp only
    split
    · next beyond => exact (UInt64.le_iff_toNat_le.mp (UInt64.le_of_lt beyond)).trans wrapped
    · exact wrapped
  · rw [updateTokens, if_pos running, UInt64.toNat_div]
    exact Nat.div_mul_le_self _ _

theorem admitted_running {start stop : Int} (running : r.running = true) (before : r.last ≤ start)
    (later : start ≤ time) (ordered : Ordered time calls) (within : lastTime time calls ≤ stop) :
    r.admitted calls * second.toNat ≤ r.tokens.toNat * second.toNat + (r.product start).toNat +
      r.rate.toNat * (stop - start).toNat := by
  induction calls generalizing r start time with
  | nil => simp [admitted]
  | cons call rest ih =>
    obtain ⟨now, length⟩ := call
    have reached : start ≤ now := later.trans ordered.1
    have stops : now ≤ stop := ordered.2.le_lastTime.trans within
    rw [admitted]
    rcases r.allowed_cases now length with ⟨-, same⟩ | ⟨-, allowed, -, rate, running', spent, last⟩
    · rw [same]
      simpa using ih running before reached ordered.2 within
    · obtain ⟨found, paid⟩ := available_toNat_le running now
      have grown := product_le before reached
      rw [if_pos allowed, Nat.add_mul]
      by_cases changed : r.updateTokens now ≠ 0
      · rw [if_pos changed] at last
        have further := ih running' (le_of_eq last) (le_refl now) ordered.2 within
        rw [product_last last, rate] at further
        have split : (stop - start).toNat = (now - start).toNat + (stop - now).toNat := by omega
        rw [split, Nat.mul_add]
        nlinarith
      · -- Without new tokens the timestamp stays, and the product with it.
        rw [if_neg changed] at last
        have further := ih running' (last ▸ before) reached ordered.2 within
        rw [show (r.allowed now length).2.product start = r.product start by
          rw [product, product, rate, last], rate] at further
        rw [not_not.mp changed, UInt64.toNat_zero] at found
        nlinarith

theorem admitted_empty (empty : r.burst = 0) (calls : List (Int × UInt64)) : r.admitted calls = 0 := by
  induction calls generalizing r with
  | nil => rfl
  | cons call rest ih =>
    obtain ⟨now, length⟩ := call
    have config := r.allowed_config now length
    have none := UInt64.le_iff_toNat_le.mp (r.available_le now)
    rw [empty, UInt64.toNat_zero] at none
    rw [admitted, ih (config.1.trans empty)]
    rcases r.allowed_cases now length with ⟨-, same⟩ | ⟨-, -, -, -, -, spent, -⟩
    · simp [same]
    · split <;> omega

theorem product_after (nonempty : r.burst ≠ 0) (allowed : (r.allowed now length).1 = true) :
    ((r.allowed now length).2.product now).toNat < second.toNat := by
  rcases r.allowed_cases now length with ⟨-, same⟩ | ⟨-, -, -, rate, -, -, last⟩
  · rw [same] at allowed
    cases allowed
  · by_cases changed : r.updateTokens now ≠ 0
    · rw [if_pos changed] at last
      rw [product_last last]
      decide
    · have none := not_not.mp changed
      rw [if_neg changed] at last
      rw [product, rate, last]
      unfold updateTokens at none
      split at none
      · have zero : (r.product now).toNat / second.toNat = 0 := by
          rw [← UInt64.toNat_div, none, UInt64.toNat_zero]
        exact Nat.lt_of_div_eq_zero (by decide) zero
      · exact absurd none nonempty

theorem admitted_window (before : r.last ≤ now) (ordered : Ordered now calls) :
    r.admitted ((now, length) :: calls) * second.toNat < (r.burst.toNat + 1) * second.toNat +
      r.rate.toNat * (lastTime now calls - now).toNat := by
  have positive : 0 < second.toNat := by decide
  by_cases empty : r.burst = 0
  · rw [admitted_empty empty]
    nlinarith
  have passed {now : Int} {length : UInt64} {calls : List (Int × UInt64)} (before : r.last ≤ now)
      (ordered : Ordered now calls) (allowed : (r.allowed now length).1 = true) :
      r.admitted ((now, length) :: calls) * second.toNat < (r.burst.toNat + 1) * second.toNat +
        r.rate.toNat * (lastTime now calls - now).toNat := by
    have below := UInt64.le_iff_toNat_le.mp (r.available_le now)
    have left := product_after empty allowed
    rcases r.allowed_cases now length with ⟨-, same⟩ | ⟨-, -, -, rate, running, spent, last⟩
    · rw [same] at allowed
      cases allowed
    · have behind : (r.allowed now length).2.last ≤ now := by
        rw [last]
        split
        · exact le_refl now
        · exact before
      have further := admitted_running running behind (le_refl now) ordered (le_refl _)
      rw [rate] at further
      rw [admitted, if_pos allowed, Nat.add_mul]
      nlinarith
  induction calls generalizing now length with
  | nil =>
    rcases r.allowed_cases now length with ⟨-, same⟩ | ⟨-, allowed, -⟩
    · rw [admitted, same]
      simp only [Bool.false_eq_true, if_false, admitted]
      nlinarith
    · exact passed before ordered allowed
  | cons call rest ih =>
    rcases r.allowed_cases now length with ⟨-, same⟩ | ⟨-, allowed, -⟩
    · obtain ⟨next, more⟩ := call
      have further := @ih next more (before.trans ordered.1) ordered.2
      have shorter : (lastTime next rest - next).toNat ≤ (lastTime next rest - now).toNat := by
        have := ordered.1
        omega
      have := Nat.mul_le_mul_left r.rate.toNat shorter
      rw [admitted, same, lastTime]
      simp only [Bool.false_eq_true, if_false, Nat.zero_add]
      omega
    · exact passed before ordered allowed

theorem admitted_bounded (burst rate : UInt64) (created : Int) (before window : List (Int × UInt64))
    (ordered : Ordered created (before ++ window)) :
    (∀ now, (((build burst rate created).run before).available now) ≤ burst) ∧
      ((build burst rate created).run before).tokens ≤ burst ∧
      ∀ first rest, window = first :: rest →
        ((build burst rate created).run before).admitted window * 10 ^ 9 <
          (burst.toNat + 1) * 10 ^ 9 + rate.toNat * (lastTime first.1 rest - first.1).toNat := by
  obtain ⟨isBurst, isRate⟩ := (build burst rate created).run_config before
  obtain ⟨ordered', onward⟩ := ordered.append
  have sound := (build_sound burst rate created).run ordered'
  have top {n : UInt64} (below : n ≤ ((build burst rate created).run before).burst) : n ≤ burst := by
    rwa [isBurst] at below
  refine ⟨fun now => top (available_le _ now), top sound.tokens, ?_⟩
  rintro ⟨now, length⟩ rest rfl
  have bound := @admitted_window _ now length rest (sound.last.trans onward.1) onward.2
  rw [isBurst, isRate] at bound
  exact bound

theorem admitted_bounded_twice :
    ((build 10 1 0).run []).admitted [(5, 8), (1000000005, 3)] * 10 ^ 9 <
      (10 + 1) * 10 ^ 9 + 1 * 1000000000 :=
  (admitted_bounded 10 1 0 [] [(5, 8), (1000000005, 3)] (by simp [Ordered])).2.2 _ _ rfl

-- What is missing in the bucket is in the refill, although its product is taken modulo `2 ^ 64`.
def Refilled (r : Ratelimit) (now : Int) : Prop :=
  r.running = true →
    let refill := r.rate.toNat * min (now - r.last).toNat (2 ^ 63 - 1) % 2 ^ 64 / 10 ^ 9
    r.burst.toNat ≤ r.tokens.toNat + refill ∧ r.tokens.toNat + refill < 2 ^ 64

theorem refilled_iff (sound : r.Sound now) : r.Refilled now ↔ r.available now = r.burst := by
  rw [Refilled, ← product_toNat sound.last]
  cases running : r.running with
  | false => simp [available, running]
  | true =>
    have isRefill : (r.updateTokens now).toNat = (r.product now).toNat / 10 ^ 9 := by
      rw [updateTokens, if_pos running, UInt64.toNat_div]
      rfl
    have full := UInt64.le_iff_toNat_le.mp sound.tokens
    have limit := (r.updateTokens now).toNat_lt
    have sum := UInt64.toNat_add r.tokens (r.updateTokens now)
    dsimp only
    rw [← isRefill, available, if_pos running]
    dsimp only
    split
    · next beyond =>
      have := UInt64.lt_iff_toNat_lt.mp beyond
      simp only [iff_true, true_implies]
      omega
    · next within =>
      have := UInt64.le_iff_toNat_le.mp (UInt64.not_lt.mp within)
      rw [← UInt64.toNat_inj]
      simp only [true_implies]
      omega

theorem recovers_iff (burst rate : UInt64) (created : Int) (calls : List (Int × UInt64))
    (ordered : Ordered created calls) (now : Int) (later : lastTime created calls ≤ now)
    (idle : burst.toNat * 10 ^ 9 ≤ rate.toNat * (now - lastTime created calls).toNat) :
    ((∀ length ≤ burst, (((build burst rate created).run calls).allowed now length).1 = true) ↔
        ((build burst rate created).run calls).Refilled now) ∧
      (0 < rate → rate.toNat * (now - ((build burst rate created).run calls).last).toNat < 2 ^ 63 →
        ((build burst rate created).run calls).Refilled now) := by
  obtain ⟨isBurst, isRate⟩ := (build burst rate created).run_config calls
  have reached := (build_sound burst rate created).run ordered
  have sound : ((build burst rate created).run calls).Sound now :=
    ⟨reached.last.trans later, reached.tokens⟩
  generalize (build burst rate created).run calls = r at isBurst isRate reached sound ⊢
  obtain ⟨rfl, rfl⟩ : r.burst = burst ∧ r.rate = rate := ⟨isBurst, isRate⟩
  constructor
  · rw [refilled_iff sound]
    constructor
    · intro all
      rcases r.allowed_cases now r.burst with ⟨-, same⟩ | ⟨enough, -⟩
      · have := all r.burst (UInt64.le_refl _)
        rw [same] at this
        cases this
      · exact UInt64.le_antisymm (r.available_le now) enough
    · intro full length small
      rcases r.allowed_cases now length with ⟨beyond, -⟩ | ⟨-, allowed, -⟩
      · rw [full] at beyond
        exact absurd small (UInt64.not_le.mpr beyond)
      · exact allowed
  · intro positive short running
    have isPositive := UInt64.lt_iff_toNat_lt.mp positive
    have wait : (now - r.last).toNat < 2 ^ 63 :=
      (Nat.le_mul_of_pos_left _ isPositive).trans_lt short
    have span : (now - lastTime created calls).toNat ≤ (now - r.last).toNat := by
      have := reached.last
      omega
    have given := idle.trans (Nat.mul_le_mul_left r.rate.toNat span)
    have full := UInt64.le_iff_toNat_le.mp reached.tokens
    rw [Nat.min_eq_left (by omega), Nat.mod_eq_of_lt (by omega)]
    dsimp only
    omega

theorem recovers_iff_once :
    ((∀ length ≤ 1500, (((build 1500 1000 0).run [(0, 1500)]).allowed 1500000000 length).1 = true) ↔
        ((build 1500 1000 0).run [(0, 1500)]).Refilled 1500000000) ∧
      (0 < (1000 : UInt64) →
        (1000 : UInt64).toNat *
            (1500000000 - ((build 1500 1000 0).run [(0, 1500)]).last).toNat < 2 ^ 63 →
          ((build 1500 1000 0).run [(0, 1500)]).Refilled 1500000000) :=
  recovers_iff 1500 1000 0 [(0, 1500)] (by simp [Ordered]) 1500000000 (by decide) (by decide)

-- After 18 seconds the product of a rate of 10⁹ bytes per second has just wrapped around.
theorem idle_limiter_refuses :
    ∃ burst rate created calls now, 0 < rate ∧ Ordered created calls ∧
      lastTime created calls ≤ now ∧
      burst.toNat * 10 ^ 9 ≤ rate.toNat * (now - lastTime created calls).toNat ∧
      ∃ length ≤ burst, (((build burst rate created).run calls).allowed now length).1 = false :=
  ⟨1500, 1000000000, 0, [(0, 1500)], 18446744074, by decide, by simp [Ordered], by decide, by decide,
    1500, by decide, by decide +kernel⟩

end Ratelimit

end Lemming.Forwarding
