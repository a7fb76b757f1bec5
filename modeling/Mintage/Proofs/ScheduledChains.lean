import Mintage.Proofs.DemandedTargets

/-! Chains that keep to the schedule. The time of a period is taken from its first header to its last, which is one gap
less than there are blocks in it, so even then a retarget finds them too fast. -/

namespace Mintage
open CompactTarget

namespace Params

/-- Every header has this target, and comes as long after the one before as it should. -/
def OnSchedule (params : Params) (target : Nat) : HeaderChain → Prop
  | .genesis header => Means header.bits target
  | .extend parent header =>
    params.OnSchedule target parent ∧ Means header.bits target ∧
      header.time.toNat = parent.header.time.toNat + params.spacing.toNat

variable {params : Params} {target : Nat} {chain : HeaderChain}

theorem OnSchedule.means (scheduled : params.OnSchedule target chain) : Means chain.header.bits target := by
  cases chain with
  | genesis header => exact scheduled
  | extend parent header => exact scheduled.2.1

theorem OnSchedule.time_eq (scheduled : params.OnSchedule target chain) {node : HeaderChain}
    (older : node ∈ chain.ancestors) :
    chain.header.time.toNat = node.header.time.toNat + (chain.height - node.height) * params.spacing.toNat := by
  induction chain with
  | genesis header =>
    cases List.mem_singleton.mp older
    simp
  | extend parent header ih =>
    rcases List.mem_cons.mp older with rfl | below
    · simp
    · have lower := HeaderChain.height_le_of_mem_ancestors below
      have before := ih scheduled.1 below
      have step : header.time.toNat = parent.header.time.toNat + params.spacing.toNat := scheduled.2.2
      rw [HeaderChain.header_extend, HeaderChain.height_extend, Nat.succ_sub lower, Nat.succ_mul]
      omega

/-- In less than the time that it should take, a target falls. -/
theorem scaled?_lt {actual expected : Nat} (quick : actual < expected) (small : target < targetBound) :
    ∃ next, scaled? target actual expected = some next ∧ next ≤ target ∧ (0 < target → next < target) := by
  rw [scaled?]
  split
  · refine ⟨_, rfl, Nat.div_le_of_le_mul ?_, fun positive => Nat.div_lt_of_lt_mul ?_⟩
    · rw [Nat.mul_comm]
      exact Nat.mul_le_mul_right _ (Nat.le_of_lt quick)
    · rw [Nat.mul_comm]
      exact Nat.mul_lt_mul_of_pos_right quick positive
  · have whole : target / expected * expected ≤ target := Nat.div_mul_le_self ..
    have coarse : target / expected * actual ≤ target / expected * expected :=
      Nat.mul_le_mul_left _ (Nat.le_of_lt quick)
    refine ⟨_, if_pos (by omega), by omega, fun positive => ?_⟩
    rcases Nat.eq_zero_or_pos (target / expected) with none | some
    · rwa [none, Nat.zero_mul]
    · exact Nat.lt_of_lt_of_le (Nat.mul_lt_mul_of_pos_left quick some) whole

variable {blocks : Nat}

section Periods

variable (spaced : 1 ≤ params.spacing.toNat) (several : 2 ≤ blocks)
  (whole : params.timespan.toNat = blocks * params.spacing.toNat)

include spaced several whole

theorem stride_eq : params.stride = blocks := by
  have counted : params.interval.toNat = blocks := by
    rw [interval, UInt64.toNat_div, toNat_max_one, Nat.max_eq_left spaced, whole, Nat.mul_div_cancel _ spaced]
  rw [stride, toNat_max_one, counted]
  omega

theorem period_eq : params.period = blocks * params.spacing.toNat := by
  rw [Params.period, whole, Nat.max_eq_left (Nat.mul_pos (by omega) spaced)]

/-- At a retarget the time that counts is that of the gaps between the blocks of one period. It is no less than half of
the period, so nothing is cut off. -/
theorem OnSchedule.elapsed_eq (scheduled : params.OnSchedule target chain) (full : blocks ≤ chain.height + 1)
    {first : HeaderChain} (older : first ∈ chain.ancestors) (starts : first.height = chain.height + 1 - blocks) :
    params.elapsed chain first.header.time = (blocks - 1) * params.spacing.toNat ∧ 4 * params.period < 2 ^ 64 := by
  have gaps : chain.height - first.height = blocks - 1 := by omega
  have passed := scheduled.time_eq older
  have half : 2 * params.spacing.toNat ≤ blocks * params.spacing.toNat := Nat.mul_le_mul_right _ several
  have bound := chain.header.time.toNat_lt
  rw [gaps, Nat.sub_one_mul] at passed
  rw [elapsed, period_eq spaced several whole, passed, Nat.add_sub_cancel_left, Nat.sub_one_mul]
  omega

theorem OnSchedule.nextBits?_eq (scheduled : params.OnSchedule target chain) (free : params.noRetargeting = false)
    (due : (chain.height + 1) % blocks = 0) (time : UInt32) :
    params.nextBits? (some chain) time =
      (scaled? target ((blocks - 1) * params.spacing.toNat) (blocks * params.spacing.toNat)).map fun next =>
        encode (min next params.powLimit) := by
  have stride := stride_eq spaced several whole
  have full : blocks ≤ chain.height + 1 := Nat.le_of_dvd (Nat.succ_pos _) (Nat.dvd_of_mod_eq_zero due)
  obtain ⟨first, found⟩ : ∃ first, chain.ancestor? (chain.height + 1 - blocks) = some first :=
    HeaderChain.exists_ancestor? (by omega)
  obtain ⟨older, starts⟩ := HeaderChain.ancestor?_eq_some_iff.mp found
  obtain ⟨observed, span⟩ := scheduled.elapsed_eq spaced several whole full older starts
  rw [nextBits?_of_due (by rwa [stride]), stride, found, Option.getD_some, retarget?_eq span free, observed,
    period_eq spaced several whole, scheduled.means.target_eq]

end Periods

/-- At every retarget the target is scaled by the gaps in a period over its blocks. It falls, unless it is zero. -/
theorem retarget_on_schedule (free : params.noRetargeting = false) (spaced : 1 ≤ params.spacing.toNat)
    (several : 2 ≤ blocks) (whole : params.timespan.toNat = blocks * params.spacing.toNat)
    (within : target ≤ params.powLimit) (scheduled : params.OnSchedule target chain)
    (due : (chain.height + 1) % blocks = 0) (time : UInt32) :
    ∃ bits next, params.nextBits? (some chain) time = some bits ∧ Means bits (rounded next) ∧
      scaled? target ((blocks - 1) * params.spacing.toNat) (blocks * params.spacing.toNat) = some next ∧
      (target * ((blocks - 1) * params.spacing.toNat) < targetBound → next = target * (blocks - 1) / blocks) ∧
      ((decode bits).target = target ↔ target = 0) := by
  have small : target < targetBound := Nat.lt_of_le_of_lt within params.powLimit_lt
  have quick : (blocks - 1) * params.spacing.toNat < blocks * params.spacing.toNat :=
    Nat.mul_lt_mul_of_pos_right (by omega) spaced
  obtain ⟨next, scaled, below, falls⟩ := scaled?_lt quick small
  have asked := scheduled.nextBits?_eq spaced several whole free due time
  rw [scaled, Option.map_some, Nat.min_eq_left (Nat.le_trans below within)] at asked
  have means := means_encode (Nat.lt_of_le_of_lt below small)
  refine ⟨_, next, asked, means, scaled, fun fits => ?_, ?_⟩
  · rw [scaled?, if_pos fits, Option.some.injEq, ← Nat.mul_assoc, Nat.mul_div_mul_right _ _ spaced] at scaled
    exact scaled.symm
  · have less := rounded_le next
    rw [means.target_eq]
    omega

end Params

/-! Blocks of the main network, two minutes apart. -/

namespace Prompt
open Params

def headerAt (height : Nat) : BlockHeader where
  time := .ofNat (1000000 + 120 * height)
  bits := 0x1d00ffff

def chain : Nat → HeaderChain
  | 0 => .genesis (headerAt 0)
  | height + 1 => .extend (chain height) (headerAt (height + 1))

private theorem header_chain (height : Nat) : (chain height).header = headerAt height := by
  cases height <;> rfl

private theorem onSchedule_chain {height : Nat} (early : height < 100) :
    main.OnSchedule (decode 0x1d00ffff).target (chain height) := by
  have means : Means 0x1d00ffff (decode 0x1d00ffff).target := ⟨by decide, by decide, rfl⟩
  induction height with
  | zero => exact means
  | succ height ih =>
    refine ⟨ih (by omega), means, ?_⟩
    have spacing : main.spacing.toNat = 120 := rfl
    have time {height : Nat} (early : height < 100) : (headerAt height).time.toNat = 1000000 + 120 * height := by
      apply UInt32.toNat_ofNat_of_lt'
      simp only [UInt32.size]
      omega
    rw [header_chain, time early, time (by omega), spacing]
    omega

/-- Before the second retarget. -/
theorem second_retarget_lowers_target :
    main.noRetargeting = false ∧ 1 ≤ main.spacing.toNat ∧ 2 ≤ 5 ∧ main.timespan.toNat = 5 * main.spacing.toNat ∧
      (decode 0x1d00ffff).target ≤ main.powLimit ∧ main.OnSchedule (decode 0x1d00ffff).target (chain 9) ∧
      ((chain 9).height + 1) % 5 = 0 ∧
      ∃ bits next, main.nextBits? (some (chain 9)) 1001200 = some bits ∧ Means bits (rounded next) ∧
        scaled? (decode 0x1d00ffff).target 480 600 = some next ∧ next = (decode 0x1d00ffff).target * 4 / 5 ∧
        (decode bits).target ≠ (decode 0x1d00ffff).target := by
  have spaced : 1 ≤ main.spacing.toNat := by decide
  have within : (decode 0x1d00ffff).target ≤ main.powLimit := by decide
  have scheduled : main.OnSchedule (decode 0x1d00ffff).target (chain 9) := onSchedule_chain (by decide)
  have due : ((chain 9).height + 1) % 5 = 0 := by decide
  obtain ⟨bits, next, asked, means, scaled, exact, kept⟩ :=
    retarget_on_schedule rfl spaced (by decide) rfl within scheduled due 1001200
  exact ⟨rfl, spaced, by decide, rfl, within, scheduled, due, bits, next, asked, means, scaled, exact (by decide),
    fun same => absurd (kept.mp same) (by decide)⟩

/-- The fifth block of a period comes after four gaps, so the target falls by a fifth. -/
theorem target_falls_on_schedule :
    main.noRetargeting = false ∧ 1 ≤ main.spacing.toNat ∧ main.timespan.toNat = 5 * main.spacing.toNat ∧
      (decode 0x1d00ffff).target ≤ main.powLimit ∧ main.OnSchedule (decode 0x1d00ffff).target (chain 4) ∧
      ((chain 4).height + 1) % 5 = 0 ∧ main.nextBits? (some (chain 4)) 1000600 = some 0x1d00cccc ∧
      (decode 0x1d00cccc).target ≠ (decode 0x1d00ffff).target :=
  ⟨rfl, by decide, rfl, by decide, onSchedule_chain (by decide), by decide, by decide, by decide⟩

end Prompt
end Mintage
