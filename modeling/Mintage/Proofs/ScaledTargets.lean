import Mintage.Proofs.DemandedTargets

/-! How a retarget depends on the time that its period took. More time never asks for a lower target, also where the
product has become too large and the target is divided first: what that division drops is worth less than a second. -/

namespace Mintage
open CompactTarget

namespace Params

section Scaling

variable {target expected less more : Nat}

/-- Where the quotient is at least `less`, a unit more makes up for the remainder. -/
theorem mul_div_le_div_mul (positive : 0 < expected) (longer : less < more) (room : less * expected ≤ target) :
    target * less / expected ≤ target / expected * more := by
  have quotient : less ≤ target / expected := (Nat.le_div_iff_mul_le positive).mpr room
  have dropped : target % expected * less ≤ expected * (target / expected) :=
    Nat.mul_le_mul (Nat.le_of_lt (Nat.mod_lt _ positive)) quotient
  apply Nat.div_le_of_le_mul
  calc target * less = expected * (target / expected) * less + target % expected * less := by
        rw [← Nat.add_mul, Nat.div_add_mod]
    _ ≤ expected * (target / expected) * less + expected * (target / expected) := Nat.add_le_add_left dropped _
    _ = expected * (target / expected) * (less + 1) := (Nat.mul_succ ..).symm
    _ ≤ expected * (target / expected) * more := Nat.mul_le_mul_left _ longer
    _ = expected * (target / expected * more) := Nat.mul_assoc ..

/-- A product leaves 256 bits only for a target that is large next to any time it is scaled by. -/
theorem room_of_overflow (span : 4 * expected < 2 ^ 64) (short : less ≤ 4 * expected) (long : more ≤ 4 * expected)
    (leaves : targetBound ≤ target * more) : less * expected ≤ target := by
  have bound : targetBound = 2 ^ 192 * 2 ^ 64 := by decide
  have large : 2 ^ 192 ≤ target := by
    refine Nat.le_of_mul_le_mul_right (c := 2 ^ 64) ?_ (by decide)
    calc 2 ^ 192 * 2 ^ 64 ≤ target * more := bound ▸ leaves
      _ ≤ target * 2 ^ 64 := Nat.mul_le_mul_left _ (by omega)
  calc less * expected ≤ 2 ^ 64 * 2 ^ 64 := Nat.mul_le_mul (by omega) (by omega)
    _ ≤ 2 ^ 192 := by decide
    _ ≤ target := large

theorem mul_div_le_of_overflow (positive : 0 < expected) (span : 4 * expected < 2 ^ 64) (long : more ≤ 4 * expected)
    (fits : target * less < targetBound) (leaves : targetBound ≤ target * more) :
    target * less / expected ≤ target / expected * more := by
  have longer : less < more := Nat.lt_of_mul_lt_mul_left (Nat.lt_of_lt_of_le fits leaves)
  exact mul_div_le_div_mul positive longer (room_of_overflow span (by omega) long leaves)

/-- Where the longer time gives a target at all, so does the shorter one, and none that is higher. -/
theorem scaled?_mono {next : Nat} (positive : 0 < expected) (span : 4 * expected < 2 ^ 64) (ordered : less ≤ more)
    (long : more ≤ 4 * expected) (slow : scaled? target more expected = some next) :
    ∃ lower, scaled? target less expected = some lower ∧ lower ≤ next := by
  have product : target * less ≤ target * more := Nat.mul_le_mul_left _ ordered
  have coarse : target / expected * less ≤ target / expected * more := Nat.mul_le_mul_left _ ordered
  rw [scaled?] at slow ⊢
  split at slow
  next fits =>
    cases slow
    rw [if_pos (Nat.lt_of_le_of_lt product fits)]
    exact ⟨_, rfl, Nat.div_le_div_right product⟩
  next leaves =>
    rw [Nat.not_lt] at leaves
    simp only [Option.ite_none_right_eq_some, Option.some.injEq] at slow
    obtain ⟨small, rfl⟩ := slow
    split
    next fits => exact ⟨_, rfl, mul_div_le_of_overflow positive span long fits leaves⟩
    next => exact ⟨_, if_pos (Nat.lt_of_le_of_lt coarse small), coarse⟩

end Scaling

variable {params : Params} {chain : HeaderChain} {early late : UInt32}

theorem elapsed_anti (ordered : early ≤ late) : params.elapsed chain late ≤ params.elapsed chain early := by
  rw [UInt32.le_iff_toNat_le] at ordered
  rw [elapsed, elapsed]
  omega

/-- The earlier a period started, the longer it took and the higher is the target after it. -/
theorem slower_period_eases_target (span : 4 * max params.timespan.toNat 1 < 2 ^ 64) (chain : HeaderChain)
    (ordered : early ≤ late) :
    (∀ slow, params.retarget? chain early = some slow →
      ∃ quick, params.retarget? chain late = some quick ∧ (decode quick).target ≤ (decode slow).target) ∧
    ((decode chain.header.bits).target * params.elapsed chain late < targetBound →
      targetBound ≤ (decode chain.header.bits).target * params.elapsed chain early →
      (decode chain.header.bits).target * params.elapsed chain late / params.period ≤
        (decode chain.header.bits).target / params.period * params.elapsed chain early) := by
  have positive : 0 < params.period := Nat.le_max_right ..
  have long := (params.elapsed_bounds chain early).2
  constructor
  · intro slow asked
    cases free : params.noRetargeting with
    | true =>
      have kept (firstTime : UInt32) : params.retarget? chain firstTime = some chain.header.bits := by
        rw [retarget?, free, if_pos rfl]
        rfl
      rw [kept] at asked
      cases asked
      exact ⟨_, kept late, Nat.le_refl _⟩
    | false =>
      rw [retarget?_eq span free, Option.map_eq_some_iff] at asked
      obtain ⟨next, scaled, rfl⟩ := asked
      obtain ⟨lower, found, below⟩ := scaled?_mono positive span (elapsed_anti ordered) long scaled
      refine ⟨_, by rw [retarget?_eq span free, found]; rfl, ?_⟩
      have limited : min next params.powLimit < targetBound :=
        Nat.lt_of_le_of_lt (Nat.min_le_right ..) params.powLimit_lt
      have ranked : min lower params.powLimit ≤ min next params.powLimit := by omega
      rw [(means_encode limited).target_eq, (means_encode (Nat.lt_of_le_of_lt ranked limited)).target_eq]
      exact rounded_mono ranked limited
  · intro fits leaves
    exact mul_div_le_of_overflow positive span long fits leaves

end Params

/-! A target whose product with ten minutes fits, and with one second more does not. -/

namespace Verging
open Params

def params : Params :=
  { Params.main with powLimit := targetBound - 1, powLimit_lt := by decide }

def chain : HeaderChain :=
  .genesis { time := 1000, bits := 0x1f6d2200 }

theorem overflow_eases_target :
    4 * max params.timespan.toNat 1 < 2 ^ 64 ∧ (399 : UInt32) ≤ 400 ∧
      params.retarget? chain 399 = some 0x1f6d5090 ∧
      (∃ quick, params.retarget? chain 400 = some quick ∧ (decode quick).target ≤ (decode 0x1f6d5090).target) ∧
      (decode 0x1f6d2200).target * 600 < targetBound ∧ targetBound ≤ (decode 0x1f6d2200).target * 601 ∧
      (decode 0x1f6d2200).target * 600 / 600 ≤ (decode 0x1f6d2200).target / 600 * 601 := by
  have span : 4 * max params.timespan.toNat 1 < 2 ^ 64 := by decide
  have ordered : (399 : UInt32) ≤ 400 := by decide
  have slow : params.retarget? chain 399 = some 0x1f6d5090 := by decide
  have fits : (decode 0x1f6d2200).target * 600 < targetBound := by decide
  have leaves : targetBound ≤ (decode 0x1f6d2200).target * 601 := by decide
  obtain ⟨eased, kept⟩ := slower_period_eases_target span chain ordered
  exact ⟨span, ordered, slow, eased _ slow, fits, leaves, kept fits leaves⟩

end Verging
end Mintage
