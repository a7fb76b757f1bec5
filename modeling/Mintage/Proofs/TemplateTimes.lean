import Mintage.Proofs.TemplateShape
import Mintage.Proofs.TerminalStates

/-! The times of templates. A template is later than the median below it except at the end of the word, where it is
as late, so that the clock of a miner can go back as far as it likes without taking the median or a milestone back. -/

namespace Mintage

namespace Assembly

theorem toNat_time (assembly : Assembly) :
    assembly.time.toNat = max (min (assembly.tip.medianTimePast + 1) (UInt32.size - 1)) assembly.clock.toNat := by
  have fits : min (assembly.tip.medianTimePast + 1) (UInt32.size - 1) < UInt32.size :=
    Nat.lt_of_le_of_lt (Nat.min_le_right ..) (by decide)
  have earliest := UInt32.toNat_ofNat_of_lt' fits
  change (if _ ≤ assembly.clock then assembly.clock else _ : UInt32).toNat = _
  split
  next late =>
    rw [UInt32.le_iff_toNat_le, earliest] at late
    rw [Nat.max_eq_right late]
  next early =>
    rw [UInt32.le_iff_toNat_le, earliest] at early
    rw [Nat.max_eq_left (by omega), earliest]

theorem medianTimePast_le_time (assembly : Assembly) : assembly.tip.medianTimePast ≤ assembly.time.toNat := by
  have below := assembly.tip.medianTimePast_lt
  rw [toNat_time]
  omega

end Assembly

namespace HeaderChain

variable {chain newer older parent : HeaderChain}

/-- Each header above the first has the time of a template on its parent, whatever the clock showed. -/
def TimedByTemplates : HeaderChain → Prop
  | genesis _ => True
  | extend parent header =>
    parent.TimedByTemplates ∧ ∃ assembly : Assembly, assembly.tip = parent ∧ header.time = assembly.time

theorem timedByTemplates_extend_iff {header : BlockHeader} :
    (extend parent header).TimedByTemplates ↔
      parent.TimedByTemplates ∧ ∃ clock : UInt32,
        header.time.toNat = max (min (parent.medianTimePast + 1) (UInt32.size - 1)) clock.toNat := by
  refine and_congr_right fun _ => ⟨?_, ?_⟩
  · intro ⟨assembly, top, same⟩
    refine ⟨assembly.clock, ?_⟩
    rw [same, assembly.toNat_time, top]
  · intro ⟨clock, same⟩
    let assembly : Assembly := {
      params := .regtest, policy := {}, tip := parent, witnessActive := false, options := none, clock
      stakeBits := fun _ => 0, validate := fun _ => .ok () }
    refine ⟨assembly, rfl, UInt32.toNat_inj.mp ?_⟩
    rw [same, assembly.toNat_time]

/-- Chains that grow by templates alone are timed by them. -/
theorem TimedByTemplates.extend_build {assembly : Assembly} {version : Int32} {candidates : List MempoolEntry}
    {payout : Script} {built : BlockTemplate} (timed : assembly.tip.TimedByTemplates)
    (done : assembly.build version candidates payout = .ok built) :
    (extend assembly.tip built.block.header).TimedByTemplates := by
  obtain ⟨_, _, rfl, _, _⟩ := Assembly.build_eq_ok_iff.mp done
  exact ⟨timed, assembly, rfl, rfl⟩

theorem TimedByTemplates.keepsPace (timed : chain.TimedByTemplates) : chain.KeepsPace := by
  induction chain with
  | genesis => trivial
  | extend parent header ih =>
    obtain ⟨below, assembly, rfl, same⟩ := timed
    refine ⟨ih below, ?_⟩
    rw [same]
    exact assembly.medianTimePast_le_time

/-- The times of such a chain may go down, but its median does not, and what was reached at one header is reached
at all those above it. -/
theorem TimedByTemplates.milestones_stay (timed : chain.TimedByTemplates) (member : newer ∈ chain.ancestors)
    (below : older ∈ newer.ancestors) :
    older.medianTimePast ≤ newer.medianTimePast ∧
      ∀ bound : Milestone, bound.reached older = true → bound.reached newer = true := by
  have paced : newer.KeepsPace := timed.keepsPace.of_mem_ancestors member
  exact ⟨paced.medianTimePast_le below, fun _ => Milestone.reached_of_mem_ancestors below (.inr paced)⟩

end HeaderChain

/-! A clock that jumps to the end of the word and back. -/

namespace Erratic
open HeaderChain

def first : HeaderChain := .genesis { time := 100 }

def second : HeaderChain := .extend first { time := 200 }

def third : HeaderChain := .extend second { time := 201 }

def ahead : HeaderChain := .extend third { time := 4294967295 }

def back : HeaderChain := .extend ahead { time := 202 }

theorem time_goes_back_and_median_does_not :
    (back.TimedByTemplates ∧ back ∈ back.ancestors ∧ ahead ∈ back.ancestors) ∧
    back.header.time < ahead.header.time ∧ ahead.medianTimePast ≤ back.medianTimePast ∧
    (Milestone.medianTime 201).reached back = true := by
  have at_first : first.medianTimePast = 100 := medianTimePast_eq_iff.mpr (by decide)
  have at_second : second.medianTimePast = 200 := medianTimePast_eq_iff.mpr (by decide)
  have at_third : third.medianTimePast = 200 := medianTimePast_eq_iff.mpr (by decide)
  have at_ahead : ahead.medianTimePast = 201 := medianTimePast_eq_iff.mpr (by decide)
  have timed : back.TimedByTemplates := by
    rw [back, timedByTemplates_extend_iff, at_ahead, ahead, timedByTemplates_extend_iff, at_third, third,
      timedByTemplates_extend_iff, at_second, second, timedByTemplates_extend_iff, at_first]
    exact ⟨⟨⟨⟨trivial, 200, rfl⟩, 0, rfl⟩, 4294967295, rfl⟩, 0, rfl⟩
  have older : ahead ∈ back.ancestors := List.mem_cons_of_mem _ ahead.self_mem_ancestors
  obtain ⟨median, stays⟩ := timed.milestones_stay back.self_mem_ancestors older
  have reached : (Milestone.medianTime 201).reached ahead = true := decide_eq_true (Nat.le_of_eq at_ahead.symm)
  exact ⟨⟨timed, back.self_mem_ancestors, older⟩, by decide, median, stays _ reached⟩

end Erratic
end Mintage
