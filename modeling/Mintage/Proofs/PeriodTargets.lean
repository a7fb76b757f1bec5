import Mintage.Proofs.DemandedTargets

/-! Bits inside one retarget period. A block that comes late may have the bits of the limit, but the ones after it go back
to those that the period started with. -/

namespace Mintage

namespace HeaderChain

variable {wanted : HeaderChain → Bool}

theorem find?_of_wanted {chain : HeaderChain} (fits : wanted chain = true) : chain.find? wanted = some chain := by
  cases chain <;> rw [find?, if_pos fits]

theorem find?_extend {parent : HeaderChain} {header : BlockHeader} (other : ¬ wanted (.extend parent header) = true) :
    (extend parent header).find? wanted = parent.find? wanted := by
  rw [find?, if_neg other]

end HeaderChain

namespace Params

/-- Every header above genesis has the bits that its parent asks for at its time. -/
def Obeyed (params : Params) : HeaderChain → Prop
  | .genesis _ => True
  | .extend parent header => params.Obeyed parent ∧ params.nextBits? (some parent) header.time = some header.bits

/-- The bits of the next block in the period, unless it comes late. -/
def usualBits (params : Params) (chain : HeaderChain) : UInt32 :=
  if params.allowMinDifficulty then params.regularBits params.stride chain else chain.header.bits

variable {params : Params} {chain parent : HeaderChain} {header : BlockHeader}

theorem regularBits_of_due {interval : Nat} (due : chain.height % interval = 0) :
    params.regularBits interval chain = chain.header.bits := by
  rw [regularBits, HeaderChain.find?_of_wanted (by simp [due])]
  rfl

theorem regularBits_extend {interval : Nat} (between : (parent.height + 1) % interval ≠ 0) :
    params.regularBits interval (.extend parent header) =
      if header.bits = params.limitBits then params.regularBits interval parent else header.bits := by
  rw [regularBits]
  split
  next limit =>
    rw [HeaderChain.find?_extend (by simp [between, limit]), regularBits]
  next other =>
    rw [HeaderChain.find?_of_wanted (by simp [other])]
    rfl

theorem usualBits_of_due (due : chain.height % params.stride = 0) : params.usualBits chain = chain.header.bits := by
  rw [usualBits, regularBits_of_due due, ite_self]

theorem nextBits?_of_between (spaced : 4 * params.spacing.toNat < 2 ^ 64)
    (between : (chain.height + 1) % params.stride ≠ 0) (time : UInt32) :
    params.nextBits? (some chain) time =
      some (if params.allowMinDifficulty = true ∧ chain.header.time.toNat + 2 * params.spacing.toNat < time.toNat
        then params.limitBits else params.usualBits chain) := by
  have late : time.toUInt64 > chain.header.time.toUInt64 + params.spacing * 2 ↔
      chain.header.time.toNat + 2 * params.spacing.toNat < time.toNat := by
    rw [gt_iff_lt, UInt64.lt_iff_toNat_lt, toNat_patience spaced, UInt32.toNat_toUInt64]
  rw [stride] at between
  simp only [nextBits?, if_pos between, late, usualBits, stride]
  cases params.allowMinDifficulty <;> simp

/-- A block that does not start a period changes nothing for the next, late or not. -/
theorem usualBits_extend (spaced : 4 * params.spacing.toNat < 2 ^ 64)
    (between : (parent.height + 1) % params.stride ≠ 0)
    (asked : params.nextBits? (some parent) header.time = some header.bits) :
    params.usualBits (.extend parent header) = params.usualBits parent := by
  rw [nextBits?_of_between spaced between, Option.some.injEq] at asked
  cases allowed : params.allowMinDifficulty with
  | false =>
    rw [usualBits, HeaderChain.header_extend]
    simpa [allowed] using asked.symm
  | true =>
    have regular : params.usualBits parent = params.regularBits params.stride parent := by
      rw [usualBits, allowed, if_pos rfl]
    rw [usualBits, allowed, if_pos rfl, regularBits_extend between, regular]
    split
    next => rfl
    next other =>
      -- Bits that are not those of the limit were not given for being late.
      split at asked
      next => exact absurd asked.symm other
      next => rw [← asked, regular]

/-- They are the bits that the period started with. -/
theorem usualBits_eq (spaced : 4 * params.spacing.toNat < 2 ^ 64) (obeyed : params.Obeyed chain) :
    ∃ start, chain.ancestor? (params.stride * (chain.height / params.stride)) = some start ∧
      params.usualBits chain = start.header.bits := by
  induction chain with
  | genesis header =>
    refine ⟨.genesis header, ?_, usualBits_of_due (Nat.zero_mod _)⟩
    rw [HeaderChain.height_genesis, Nat.zero_div, Nat.mul_zero]
    rfl
  | extend parent header ih =>
    by_cases due : (parent.height + 1) % params.stride = 0
    · refine ⟨.extend parent header, ?_, usualBits_of_due due⟩
      rw [HeaderChain.height_extend, Nat.mul_div_cancel' (Nat.dvd_of_mod_eq_zero due)]
      exact HeaderChain.ancestor?_eq_some_iff.mpr ⟨HeaderChain.self_mem_ancestors _, rfl⟩
    · obtain ⟨start, found, same⟩ := ih obeyed.1
      have period : (parent.height + 1) / params.stride = parent.height / params.stride := by
        rw [Nat.succ_div, if_neg fun whole => due (Nat.mod_eq_zero_of_dvd whole)]
        rfl
      refine ⟨start, ?_, (usualBits_extend spaced due obeyed.2).trans same⟩
      rw [HeaderChain.height_extend, period, HeaderChain.ancestor?, if_pos (Nat.mul_div_le ..)]
      exact found

/-- Inside a period, only a block that comes late has other bits than the first, and no later block notices it. -/
theorem exception_ends_with_block (spaced : 4 * params.spacing.toNat < 2 ^ 64) (obeyed : params.Obeyed chain)
    (between : (chain.height + 1) % params.stride ≠ 0) (time : UInt32) :
    ∃ start, chain.ancestor? (params.stride * (chain.height / params.stride)) = some start ∧
      params.nextBits? (some chain) time =
        some (if params.allowMinDifficulty = true ∧ chain.header.time.toNat + 2 * params.spacing.toNat < time.toNat
          then params.limitBits else start.header.bits) := by
  obtain ⟨start, found, same⟩ := usualBits_eq spaced obeyed
  exact ⟨start, found, by rw [nextBits?_of_between spaced between, same]⟩

end Params

/-! Two blocks in a row that come a second too late, and one in time. -/

namespace Stalled
open Params

def params : Params :=
  { Params.main with allowMinDifficulty := true }

def chain : HeaderChain :=
  .extend (.extend (.extend (.genesis { bits := 0x1d00ffff }) { time := 241, bits := params.limitBits })
    { time := 482, bits := params.limitBits }) { time := 600, bits := 0x1d00ffff }

theorem exceptions_leave_bits :
    4 * params.spacing.toNat < 2 ^ 64 ∧ params.Obeyed chain ∧ (chain.height + 1) % params.stride ≠ 0 ∧
      params.limitBits ≠ 0x1d00ffff ∧ params.nextBits? (some chain) 840 = some 0x1d00ffff ∧
      params.nextBits? (some chain) 841 = some params.limitBits := by
  have spaced : 4 * params.spacing.toNat < 2 ^ 64 := by decide
  have obeyed : params.Obeyed chain := ⟨⟨⟨trivial, by decide⟩, by decide⟩, by decide⟩
  have between : (chain.height + 1) % params.stride ≠ 0 := by decide
  obtain ⟨start, found, usual⟩ := exception_ends_with_block spaced obeyed between 840
  obtain ⟨_, _, late⟩ := exception_ends_with_block spaced obeyed between 841
  have first : chain.ancestor? (params.stride * (chain.height / params.stride)) = some (.genesis { bits := 0x1d00ffff }) :=
    rfl
  obtain rfl := Option.some.inj (found.symm.trans first)
  exact ⟨spaced, obeyed, between, by decide, usual, late⟩

end Stalled
end Mintage
