import Mintage.Proofs.ChainAncestors
import Mintage.Proofs.CompactTargets
import Mintage.Work

/-! The targets that blocks are asked to meet, along a whole chain. Each step scales a target within a factor of four
and rounds it down, so no arithmetic leaves its range and no target leaves the limit. -/

namespace Mintage
open CompactTarget

namespace HeaderChain

theorem mem_ancestors_of_find? {wanted : HeaderChain → Bool} {chain found : HeaderChain}
    (walk : chain.find? wanted = some found) : found ∈ chain.ancestors := by
  induction chain with
  | genesis header =>
    rw [find?] at walk
    split at walk
    · cases walk
      exact self_mem_ancestors _
    · cases walk
  | extend parent header ih =>
    rw [find?] at walk
    split at walk
    · cases walk
      exact self_mem_ancestors _
    · exact List.mem_cons_of_mem _ (ih walk)

end HeaderChain

namespace Params

/-- Seconds in one retarget period, of which there is one at least. -/
def period (params : Params) : Nat :=
  max params.timespan.toNat 1

/-- Blocks in one retarget period, of which there is one at least. -/
def stride (params : Params) : Nat :=
  (max params.interval 1).toNat

/-- These bits stand for a target within the limit. -/
structure Permits (params : Params) (bits : UInt32) : Prop where
  positive : (decode bits).negative = false
  fits : (decode bits).overflow = false
  within : (decode bits).target ≤ params.powLimit

/-- Genesis has bits that stand for a target, and every later header those that its parent asks for at its time. -/
def Demanded (params : Params) : HeaderChain → Prop
  | .genesis header => params.Permits header.bits
  | .extend parent header => params.Demanded parent ∧ params.nextBits? (some parent) header.time = some header.bits

variable {params : Params} {chain : HeaderChain} {time : UInt32}

theorem toNat_max_one (n : UInt64) : (max n 1).toNat = max n.toNat 1 := by
  have one : (1 : UInt64).toNat = 1 := rfl
  change (if n ≤ 1 then (1 : UInt64) else n).toNat = max n.toNat 1
  split
  next least =>
    rw [UInt64.le_iff_toNat_le] at least
    omega
  next more =>
    rw [UInt64.le_iff_toNat_le] at more
    omega

theorem toNat_period (params : Params) : (max params.timespan 1).toNat = params.period :=
  toNat_max_one params.timespan

theorem Permits.of_encode {target : Nat} (within : target ≤ params.powLimit) : params.Permits (encode target) := by
  obtain ⟨positive, fits, value⟩ := means_encode (Nat.lt_of_le_of_lt within params.powLimit_lt)
  refine ⟨positive, fits, ?_⟩
  rw [value]
  exact Nat.le_trans (rounded_le target) within

theorem permits_limitBits : params.Permits params.limitBits :=
  .of_encode (Nat.le_refl _)

theorem toNat_fourPeriods (span : 4 * params.period < 2 ^ 64) :
    (max params.timespan 1 * 4).toNat = 4 * params.period := by
  have four : (4 : UInt64).toNat = 4 := rfl
  rw [UInt64.toNat_mul, toNat_period, Nat.mul_comm, four, Nat.mod_eq_of_lt span]

/-- The latest time at which a block does not count as stalled. -/
theorem toNat_patience (spaced : 4 * params.spacing.toNat < 2 ^ 64) (time : UInt32) :
    (time.toUInt64 + params.spacing * 2).toNat = time.toNat + 2 * params.spacing.toNat := by
  have two : (2 : UInt64).toNat = 2 := rfl
  have small := time.toNat_lt
  have doubled : (params.spacing * 2).toNat = 2 * params.spacing.toNat := by
    rw [UInt64.toNat_mul, Nat.mul_comm, two]
    exact Nat.mod_eq_of_lt (by omega)
  rw [UInt64.toNat_add, UInt32.toNat_toUInt64, doubled]
  exact Nat.mod_eq_of_lt (by omega)

/-- The seconds from `firstTime` to the newest header, within a factor of four of the period either way. -/
def elapsed (params : Params) (chain : HeaderChain) (firstTime : UInt32) : Nat :=
  min (4 * params.period) (max (params.period / 4) (chain.header.time.toNat - firstTime.toNat))

theorem observedSpan?_eq (span : 4 * params.period < 2 ^ 64) (chain : HeaderChain) (firstTime : UInt32) :
    params.observedSpan? chain firstTime = some (params.elapsed chain firstTime) := by
  have least : (max params.timespan 1 / 4).toNat = params.period / 4 := by
    rw [UInt64.toNat_div, toNat_period]
    rfl
  simp only [observedSpan?, least, toNat_fourPeriods span]
  rw [if_neg (by omega), elapsed]

theorem elapsed_bounds (params : Params) (chain : HeaderChain) (firstTime : UInt32) :
    params.period / 4 ≤ params.elapsed chain firstTime ∧ params.elapsed chain firstTime ≤ 4 * params.period := by
  rw [elapsed]
  omega

theorem scaled?_eq_some {target actual period : Nat} (positive : 0 < period) (short : period / 4 ≤ actual)
    (long : actual ≤ 4 * period) (small : target < 2 ^ 254) :
    ∃ next, scaled? target actual period = some next ∧ target / period * (period / 4) ≤ next ∧ next ≤ 4 * target := by
  have coarse : target / period * actual ≤ target * actual / period := by
    rw [Nat.le_div_iff_mul_le positive]
    calc target / period * actual * period = target / period * period * actual := Nat.mul_right_comm ..
      _ ≤ target * actual := Nat.mul_le_mul_right _ (Nat.div_mul_le_self ..)
  have upper : target * actual / period ≤ 4 * target := by
    apply Nat.div_le_of_le_mul
    calc target * actual ≤ target * (4 * period) := Nat.mul_le_mul_left _ long
      _ = period * (4 * target) := by ac_rfl
  have lower : target / period * (period / 4) ≤ target / period * actual := Nat.mul_le_mul_left _ short
  rw [scaled?]
  split
  · exact ⟨_, rfl, by omega, upper⟩
  · -- Divided first, the product is at most four times the target and fits again.
    have fits : target / period * actual < targetBound := by
      have bound : targetBound = 4 * 2 ^ 254 := by decide
      omega
    exact ⟨_, if_pos fits, lower, by omega⟩

theorem retarget?_eq (span : 4 * params.period < 2 ^ 64) (free : params.noRetargeting = false) (firstTime : UInt32) :
    params.retarget? chain firstTime =
      (scaled? (decode chain.header.bits).target (params.elapsed chain firstTime) params.period).map fun next =>
        encode (min next params.powLimit) := by
  simp only [retarget?, free, Bool.false_eq_true, if_false, toNat_period]
  rw [observedSpan?_eq span, Option.bind_eq_bind, Option.bind_some, Option.map_eq_bind]
  rfl

theorem retarget?_eq_some (span : 4 * params.period < 2 ^ 64) (free : params.noRetargeting = false)
    (small : (decode chain.header.bits).target < 2 ^ 254) (firstTime : UInt32) :
    ∃ next, params.retarget? chain firstTime = some (encode (min next params.powLimit)) ∧
      (decode chain.header.bits).target / params.period * (params.period / 4) ≤ next ∧
      next ≤ 4 * (decode chain.header.bits).target := by
  obtain ⟨short, long⟩ := params.elapsed_bounds chain firstTime
  have positive : 0 < params.period := Nat.le_max_right ..
  obtain ⟨next, scaled, lower, upper⟩ := scaled?_eq_some positive short long small
  refine ⟨next, ?_, lower, upper⟩
  rw [retarget?_eq span free, scaled, Option.map_some]

/-- Between retargets the bits are those of a header before, or those of the limit. -/
theorem nextBits?_between (between : (chain.height + 1) % params.stride ≠ 0) (time : UInt32) :
    ∃ bits, params.nextBits? (some chain) time = some bits ∧
      (bits = params.limitBits ∨ ∃ node ∈ chain.ancestors, bits = node.header.bits) := by
  simp only [nextBits?]
  rw [stride] at between
  rw [if_pos between]
  split
  · refine ⟨_, rfl, ?_⟩
    split
    · exact .inl rfl
    · rw [regularBits]
      cases found : chain.find? _ with
      | none => exact .inl rfl
      | some node => exact .inr ⟨node, HeaderChain.mem_ancestors_of_find? found, rfl⟩
  · exact ⟨_, rfl, .inr ⟨chain, chain.self_mem_ancestors, rfl⟩⟩

theorem nextBits?_of_due (due : (chain.height + 1) % params.stride = 0) (time : UInt32) :
    params.nextBits? (some chain) time =
      params.retarget? chain ((chain.ancestor? (chain.height + 1 - params.stride)).getD chain).header.time := by
  rw [stride] at due ⊢
  simp only [nextBits?]
  rw [if_neg (not_not_intro due)]

theorem nextBits?_retarget (due : (chain.height + 1) % params.stride = 0) (time : UInt32) :
    ∃ firstTime, params.nextBits? (some chain) time = params.retarget? chain firstTime :=
  ⟨_, nextBits?_of_due due time⟩

/-- A step that starts from permitted bits comes to an end, with permitted bits. -/
theorem nextBits?_permits (limit : params.powLimit < 2 ^ 254) (span : 4 * params.period < 2 ^ 64)
    (permitted : ∀ node ∈ chain.ancestors, params.Permits node.header.bits) (time : UInt32) :
    ∃ bits, params.nextBits? (some chain) time = some bits ∧ params.Permits bits := by
  have own := permitted chain chain.self_mem_ancestors
  by_cases due : (chain.height + 1) % params.stride = 0
  · obtain ⟨firstTime, step⟩ := nextBits?_retarget due time
    cases free : params.noRetargeting with
    | true => exact ⟨chain.header.bits, by rw [step, retarget?, free, if_pos rfl]; rfl, own⟩
    | false =>
      obtain ⟨next, scaled, _⟩ := retarget?_eq_some span free (Nat.lt_of_le_of_lt own.within limit) firstTime
      exact ⟨_, step.trans scaled, .of_encode (Nat.min_le_right ..)⟩
  · obtain ⟨bits, step, rfl | ⟨node, older, rfl⟩⟩ := nextBits?_between due time
    · exact ⟨_, step, permits_limitBits⟩
    · exact ⟨_, step, permitted node older⟩

theorem permits_of_demanded (limit : params.powLimit < 2 ^ 254) (span : 4 * params.period < 2 ^ 64)
    (demanded : params.Demanded chain) : ∀ node ∈ chain.ancestors, params.Permits node.header.bits := by
  induction chain with
  | genesis header =>
    intro node older
    cases List.mem_singleton.mp older
    exact demanded
  | extend parent header ih =>
    have below := ih demanded.1
    obtain ⟨bits, step, permitted⟩ := nextBits?_permits limit span below header.time
    rw [demanded.2, Option.some.injEq] at step
    subst step
    exact List.forall_mem_cons.mpr ⟨permitted, below⟩

/-- On a chain whose headers all have the bits that were asked for, no call fails and no word of its arithmetic wraps
around, and no target leaves the limit. A retarget makes a target at most four times as high, and leaves a quarter of it
at least, the rounding of a division and of the compact form apart. -/
theorem demanded_targets_stay_in_range (limit : params.powLimit < 2 ^ 254)
    (span : 4 * max params.timespan.toNat (max params.spacing.toNat 1) < 2 ^ 64) (demanded : params.Demanded chain) :
    (∀ node ∈ chain.ancestors, params.Permits node.header.bits) ∧
    (∀ previous ∈ none :: chain.ancestors.map some, ∀ time,
      ∃ bits, params.nextBits? previous time = some bits ∧ params.Permits bits) ∧
    ((max params.timespan 1 * 4).toNat = 4 * params.period ∧ ∀ node ∈ chain.ancestors,
      (node.header.time.toUInt64 + params.spacing * 2).toNat = node.header.time.toNat + 2 * params.spacing.toNat) ∧
    (params.noRetargeting = false → ∀ node ∈ chain.ancestors, (node.height + 1) % params.stride = 0 →
      ∀ time bits, params.nextBits? (some node) time = some bits →
        (decode bits).target ≤ min (4 * (decode node.header.bits).target) params.powLimit ∧
        ∃ least, IsGreatest {value | value ≤ min ((decode node.header.bits).target / params.period *
            (params.period / 4)) params.powLimit ∧ ∃ bits, Means bits value} least ∧
          least ≤ (decode bits).target) := by
  have spanned : 4 * params.period < 2 ^ 64 := by
    rw [period]
    omega
  have permitted := permits_of_demanded limit spanned demanded
  refine ⟨permitted, ?answers, ⟨toNat_fourPeriods spanned, ?patience⟩, ?retargets⟩
  case answers =>
    refine List.forall_mem_cons.mpr ⟨fun time => ⟨_, rfl, permits_limitBits⟩, ?_⟩
    rw [List.forall_mem_map]
    intro node older time
    exact nextBits?_permits limit spanned
      (fun lower below => permitted lower (HeaderChain.ancestors_subset older below)) time
  case patience =>
    intro node _
    exact toNat_patience (by omega) node.header.time
  case retargets =>
    intro free node older due time bits asked
    have small := Nat.lt_of_le_of_lt (permitted node older).within limit
    obtain ⟨firstTime, step⟩ := nextBits?_retarget due time
    obtain ⟨next, scaled, lower, upper⟩ := retarget?_eq_some spanned free small firstTime
    obtain rfl := Option.some.inj (asked.symm.trans (step.trans scaled))
    have bounded : min next params.powLimit < targetBound :=
      Nat.lt_of_le_of_lt (Nat.min_le_right ..) params.powLimit_lt
    have kept := rounded_le (min next params.powLimit)
    rw [(means_encode bounded).target_eq]
    refine ⟨by omega, _, isGreatest_rounded ?_, rounded_mono ?_ bounded⟩
    · exact Nat.lt_of_le_of_lt (Nat.min_le_right ..) params.powLimit_lt
    · omega

end Params

/-! A retarget at every block, and two blocks in no time. -/

namespace Hurried
open Params

def params : Params :=
  { Params.main with spacing := 600 }

def chain : HeaderChain :=
  .extend (.genesis { bits := 0x1d00ffff }) { bits := 0x1c3fffc0 }

theorem retarget_stays_in_range :
    params.powLimit < 2 ^ 254 ∧ 4 * max params.timespan.toNat (max params.spacing.toNat 1) < 2 ^ 64 ∧
      params.Demanded chain ∧ params.noRetargeting = false ∧ (chain.height + 1) % params.stride = 0 ∧
      ∃ bits, params.nextBits? (some chain) 0 = some bits ∧ params.Permits bits ∧
        (decode bits).target ≤ min (4 * (decode 0x1c3fffc0).target) params.powLimit ∧
        ∃ least, IsGreatest {value | value ≤ min ((decode 0x1c3fffc0).target / params.period *
            (params.period / 4)) params.powLimit ∧ ∃ bits, Means bits value} least ∧
          least ≤ (decode bits).target := by
  have limit : params.powLimit < 2 ^ 254 := by decide
  have span : 4 * max params.timespan.toNat (max params.spacing.toNat 1) < 2 ^ 64 := by decide
  have demanded : params.Demanded chain := ⟨⟨rfl, rfl, by decide⟩, by decide⟩
  obtain ⟨_, answers, _, retargets⟩ := demanded_targets_stay_in_range limit span demanded
  have own := chain.self_mem_ancestors
  obtain ⟨bits, asked, permitted⟩ := answers (some chain) (List.mem_cons_of_mem _ (List.mem_map_of_mem own)) 0
  have due : (chain.height + 1) % params.stride = 0 := by decide
  exact ⟨limit, span, demanded, rfl, due, bits, asked, permitted, retargets rfl chain own due 0 bits asked⟩

end Hurried
end Mintage
