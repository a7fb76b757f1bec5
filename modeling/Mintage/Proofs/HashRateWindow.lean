import Mintage.Rpc.HashRate
import Mintage.Proofs.ChainPositions
import Mintage.Proofs.CompactTargets
import Mintage.Proofs.FloatQuotients

/-! The blocks and the times that an estimate of the hash rate is made of. The work kept with a header is a sum that
stops at 256 bits, of which the estimate reads sixty-four; as long as the whole chain fits, the difference of two of
them is still the work of the blocks between, modulo 2^64. -/

namespace Mintage

/-- The times of some headers, in seconds. -/
def headerTimes (headers : List HeaderChain) : List Nat :=
  headers.map fun node => node.header.time.toNat

namespace HeaderChain

variable {chain node : HeaderChain}

theorem back_succ_ne_nil (count : Nat) (chain : HeaderChain) : chain.back (count + 1) ≠ [] := by
  cases chain <;> exact List.cons_ne_nil _ _

/-- Between two headers of a chain that fits, the low words of their work differ by the work of the blocks after the
lower one. -/
theorem sub_work_eq {count : Nat} {first : HeaderChain} (fits : totalProof chain.ancestors < 2 ^ 256)
    (split : chain.ancestors = chain.back count ++ first.ancestors) :
    UInt64.ofNat chain.work - .ofNat first.work = .ofNat (totalProof (chain.back count)) := by
  have whole : totalProof chain.ancestors = totalProof (chain.back count) + totalProof first.ancestors := by
    rw [split, totalProof_append]
  rw [work_eq_totalProof fits, work_eq_totalProof (by omega), whole, UInt64.ofNat_add, UInt64.add_sub_cancel]

end HeaderChain

namespace HashRate

open HeaderChain

variable {tip last : HeaderChain} {headers : List HeaderChain}

theorem endBlock_mem (tip : HeaderChain) (height : Int) :
    endBlock tip height ∈ tip.ancestors ∧
      (endBlock tip height).height = if 0 ≤ height ∧ height < tip.height then height.toNat else tip.height := by
  unfold endBlock
  split
  next low =>
    have below : height.toNat ≤ tip.height := by omega
    obtain ⟨found, walk⟩ := exists_ancestor? below
    rw [walk]
    exact ancestor?_eq_some_iff.mp walk
  next high => exact ⟨self_mem_ancestors tip, rfl⟩

/-- An interval of at most sixty-three bits is positive once zero is replaced by one. -/
theorem toInt_max_one {interval : UInt64} (small : interval.toNat < 2 ^ 63) :
    (max interval 1).toInt64.toInt = (max interval.toNat 1 : Nat) := by
  have whole : (max interval 1).toNat = max interval.toNat 1 := by
    change (if interval ≤ 1 then 1 else interval).toNat = max interval.toNat 1
    rw [Nat.max_def, apply_ite UInt64.toNat]
    exact if_congr UInt64.le_iff_toNat_le rfl rfl
  have signed : (max interval 1).toInt64.toInt = (max interval 1).toBitVec.toInt := rfl
  have half : 2 * (max interval 1).toBitVec.toNat < 2 ^ 64 := by
    change 2 * (max interval 1).toNat < 2 ^ 64
    omega
  rw [signed, BitVec.toInt_eq_toNat_of_lt half, ← whole]
  rfl

theorem blockCount_eq {interval : UInt64} (small : interval.toNat < 2 ^ 63) (last : HeaderChain) (lookup : Int) :
    blockCount last interval lookup =
      min (if 0 < lookup then lookup.toNat else last.height % max interval.toNat 1 + 1) last.height := by
  rw [blockCount, toInt_max_one small, Int.tmod_eq_emod_of_nonneg (Int.natCast_nonneg _)]
  by_cases given : 0 < lookup
  · rw [if_pos given, if_neg (Int.not_le.mpr given)]
    omega
  · rw [if_neg given, if_pos (Int.not_lt.mp given)]
    omega

theorem timeRange_eq_foldl (headers : List HeaderChain) :
    timeRange headers = ((headerTimes headers).foldl min (UInt32.size - 1), (headerTimes headers).foldl max 0) := by
  rw [timeRange]
  generalize UInt32.size - 1 = least
  generalize 0 = most
  induction headers generalizing least most with
  | nil => rfl
  | cons node rest ih => exact ih _ _

theorem lt_of_mem_headerTimes {time : Nat} (member : time ∈ headerTimes headers) : time < UInt32.size := by
  obtain ⟨node, _, rfl⟩ := List.mem_map.mp member
  exact node.header.time.toNat_lt_size

theorem headerTimes_ne_nil (nonempty : headers ≠ []) : headerTimes headers ≠ [] :=
  mt List.map_eq_nil_iff.mp nonempty

theorem isLeast_timeRange (nonempty : headers ≠ []) :
    IsLeast {time | time ∈ headerTimes headers} (timeRange headers).1 := by
  obtain ⟨least, found⟩ := Option.ne_none_iff_exists'.mp (mt List.min?_eq_none_iff.mp (headerTimes_ne_nil nonempty))
  obtain ⟨member, below⟩ := List.min?_eq_some_iff.mp found
  have bound : least ≤ UInt32.size - 1 := Nat.le_sub_one_of_lt (lt_of_mem_headerTimes member)
  rw [timeRange_eq_foldl, List.foldl_min, found, Option.getD_some, Nat.min_eq_right bound]
  exact ⟨member, below⟩

theorem isGreatest_timeRange (nonempty : headers ≠ []) :
    IsGreatest {time | time ∈ headerTimes headers} (timeRange headers).2 := by
  obtain ⟨most, found⟩ := Option.ne_none_iff_exists'.mp (mt List.max?_eq_none_iff.mp (headerTimes_ne_nil nonempty))
  obtain ⟨member, above⟩ := List.max?_eq_some_iff.mp found
  rw [timeRange_eq_foldl, List.foldl_max, found, Option.getD_some, Nat.zero_max]
  exact ⟨member, above⟩

/-- The least and the greatest time are one exactly when all times are. -/
theorem eq_iff_of_bounds {least most : Nat} (atLeast : IsLeast {time | time ∈ headerTimes headers} least)
    (atMost : IsGreatest {time | time ∈ headerTimes headers} most) :
    least = most ↔ ∃ time, ∀ node ∈ headers, node.header.time = time := by
  obtain ⟨low, below⟩ := atLeast
  obtain ⟨high, above⟩ := atMost
  obtain ⟨first, firstMember, firstTime⟩ := List.mem_map.mp low
  obtain ⟨last, lastMember, lastTime⟩ := List.mem_map.mp high
  constructor
  · intro same
    refine ⟨first.header.time, fun node member => UInt32.toNat_inj.mp ?_⟩
    have listed : node.header.time.toNat ∈ headerTimes headers := List.mem_map_of_mem member
    have afterLeast := below listed
    have beforeMost := above listed
    omega
  · rintro ⟨time, same⟩
    rw [← firstTime, ← lastTime, same first firstMember, same last lastMember]

section Estimate

variable {interval : UInt64} {lookup height : Int} {count least most : Nat}
  (fits : totalProof last.ancestors < 2 ^ 256) (low : count ≤ last.height)
  (range : timeRange (last.back (count + 1)) = (least, most))

include fits low range

/-- An estimate divides the work of its blocks by the range of the times of these and of the block before them. -/
theorem ratio?_eq :
    ratio? last count =
      if least = most then none else some (.ofNat (totalProof (last.back count)), most - least) := by
  obtain ⟨first, walk, split⟩ := exists_back_append low
  have work := sub_work_eq fits split
  by_cases same : least = most
  · simp [ratio?, range, same, guard]
  · simp [ratio?, range, same, guard, walk, work]

variable (ended : endBlock tip height = last) (counted : blockCount last interval lookup = count)

include ended counted

theorem networkHashRate_eq :
    networkHashRate (some tip) interval lookup height =
      if last.height = 0 ∨ least = most then 0
      else (UInt64.ofNat (totalProof (last.back count))).toFloat / (most - least).toFloat := by
  simp only [networkHashRate, ended, counted, ratio?_eq fits low range]
  by_cases genesis : last.height = 0
  · rw [if_pos genesis, if_pos (.inl genesis)]
  · rw [if_neg genesis]
    by_cases same : least = most
    · rw [if_pos same, if_pos (.inr same)]
    · rw [if_neg same, if_neg (not_or.mpr ⟨genesis, same⟩)]

theorem networkHashRate_eq_zero_iff :
    networkHashRate (some tip) interval lookup height = 0 ↔
      last.height = 0 ∨ least = most ∨ totalProof (last.back count) % 2 ^ 64 = 0 := by
  have nonempty := back_succ_ne_nil count last
  have atLeast := isLeast_timeRange nonempty
  have atMost := isGreatest_timeRange nonempty
  rw [range] at atLeast atMost
  have ordered : least ≤ most := atLeast.2 atMost.1
  have short : most < 2 ^ 32 := lt_of_mem_headerTimes atMost.1
  have truncated : UInt64.ofNat (totalProof (last.back count)) = 0 ↔ totalProof (last.back count) % 2 ^ 64 = 0 := by
    rw [← UInt64.toNat_inj, UInt64.toNat_ofNat', UInt64.toNat_zero]
  rw [networkHashRate_eq fits low range ended counted, ← or_assoc]
  by_cases nothing : last.height = 0 ∨ least = most
  · rw [if_pos nothing, eq_self, true_iff]
    exact .inl nothing
  · rw [if_neg nothing, or_iff_right nothing, Binary64.toFloat_div_eq_zero_iff (by omega) (by omega), truncated]

end Estimate

/-- What an estimate is asked for: up to the header of the given height, or else the tip, the given number of blocks, or
else those since the last retarget, but never as many as there are headers. -/
structure Window (tip : HeaderChain) (interval : UInt64) (lookup height : Int) (last : HeaderChain) (count : Nat) :
    Prop where
  mem : last ∈ tip.ancestors
  height_eq : last.height = if 0 ≤ height ∧ height < tip.height then height.toNat else tip.height
  count_eq : count = min (if 0 < lookup then lookup.toNat else last.height % max interval.toNat 1 + 1) last.height

theorem window_endBlock {interval : UInt64} (small : interval.toNat < 2 ^ 63) (tip : HeaderChain)
    (lookup height : Int) :
    Window tip interval lookup height (endBlock tip height) (blockCount (endBlock tip height) interval lookup) where
  mem := (endBlock_mem tip height).1
  height_eq := (endBlock_mem tip height).2
  count_eq := blockCount_eq small _ lookup

/-- An estimate is the work of its blocks, modulo 2^64, over the seconds between the least and the greatest of their
times and that of the block before them. It is zero where there are no such blocks, seconds or work, and there only. -/
theorem estimate_measures_its_window {interval : UInt64} (small : interval.toNat < 2 ^ 63) (lookup height : Int) :
    networkHashRate none interval lookup height = 0 ∧
    ∀ tip : HeaderChain, totalProof tip.ancestors < 2 ^ 256 → ∃ last count,
      Window tip interval lookup height last count ∧ endBlock tip height = last ∧
      blockCount last interval lookup = count ∧ count ≤ last.height ∧
      (timeRange (last.back (count + 1))).1 ≤ (timeRange (last.back (count + 1))).2 ∧
      (networkHashRate (some tip) interval lookup height = 0 ↔
        last.height = 0 ∨ (∃ time, ∀ node ∈ last.back (count + 1), node.header.time = time) ∨
          totalProof (last.back count) % 2 ^ 64 = 0) ∧
      (networkHashRate (some tip) interval lookup height ≠ 0 → ∃ (work : UInt64) (least most : Nat),
        work.toNat = totalProof (last.back count) % 2 ^ 64 ∧
        IsLeast {time | time ∈ headerTimes (last.back (count + 1))} least ∧
        IsGreatest {time | time ∈ headerTimes (last.back (count + 1))} most ∧ least < most ∧
        networkHashRate (some tip) interval lookup height = work.toFloat / (most - least).toFloat) := by
  refine ⟨rfl, fun tip fits => ?_⟩
  have window := window_endBlock small tip lookup height
  obtain ⟨last, ended⟩ : ∃ last, endBlock tip height = last := ⟨_, rfl⟩
  obtain ⟨count, counted⟩ : ∃ count, blockCount last interval lookup = count := ⟨_, rfl⟩
  rw [ended, counted] at window
  have low : count ≤ last.height := by
    rw [window.count_eq]
    exact Nat.min_le_right ..
  have fits := Nat.lt_of_le_of_lt (totalProof_le_of_mem_ancestors window.mem) fits
  obtain ⟨⟨least, most⟩, range⟩ : ∃ range, timeRange (last.back (count + 1)) = range := ⟨_, rfl⟩
  have atLeast := isLeast_timeRange (back_succ_ne_nil count last)
  have atMost := isGreatest_timeRange (back_succ_ne_nil count last)
  rw [range] at atLeast atMost
  have ordered : least ≤ most := atLeast.2 atMost.1
  have vanishes := networkHashRate_eq_zero_iff fits low range ended counted
  refine ⟨last, count, window, ended, counted, low, ?ordered, ?zero, ?quotient⟩
  case ordered =>
    rwa [range]
  case zero =>
    rw [vanishes, eq_iff_of_bounds atLeast atMost]
  case quotient =>
    intro nonzero
    rw [ne_eq, vanishes, not_or, not_or] at nonzero
    obtain ⟨positive, apart, _⟩ := nonzero
    refine ⟨_, least, most, UInt64.toNat_ofNat', atLeast, atMost, Nat.lt_of_le_of_ne ordered apart, ?_⟩
    rw [networkHashRate_eq fits low range ended counted, if_neg (not_or.mpr ⟨positive, apart⟩)]

/-! Four blocks a minute apart. An estimate up to the third of them has two before it, however many are asked for. -/
namespace Minutes

def block (time : UInt32) : BlockHeader :=
  { bits := 0x207fffff, time }

def third : HeaderChain :=
  .extend (.extend (.genesis (block 1000)) (block 1060)) (block 1120)

def fourth : HeaderChain :=
  .extend third (block 1180)

theorem estimate_clamps_lookup :
    (5 : UInt64).toNat < 2 ^ 63 ∧ totalProof fourth.ancestors < 2 ^ 256 ∧
      networkHashRate (some fourth) 5 100 2 = (4 : UInt64).toFloat / (120 : Nat).toFloat := by
  have small : (5 : UInt64).toNat < 2 ^ 63 := by decide
  have proof (time : UInt32) : blockProof (block time).bits = 2 := by
    change blockProof 0x207fffff = 2
    decide
  have fits : totalProof fourth.ancestors = 8 := by
    simp [totalProof, fourth, third, ancestors, proof]
  obtain ⟨_, estimates⟩ := estimate_measures_its_window small 100 2
  obtain ⟨last, count, _, ended, counted, _, _, vanishes, quotient⟩ := estimates fourth (by omega)
  obtain rfl : third = last := ended
  obtain rfl : 2 = count := counted
  have work : totalProof (third.back 2) = 4 := by
    simp [totalProof, third, back, proof]
  have times : headerTimes (third.back 3) = [1120, 1060, 1000] := rfl
  have nonzero : networkHashRate (some fourth) 5 100 2 ≠ 0 := by
    rw [ne_eq, vanishes, work]
    rintro (genesis | ⟨time, same⟩ | none)
    · cases genesis
    · have equal := (same _ (.head _)).trans (same _ (.tail _ (.head _))).symm
      exact absurd equal (by decide)
    · cases none
  obtain ⟨low, least, most, modulo, atLeast, atMost, _, rate⟩ := quotient nonzero
  rw [times] at atLeast atMost
  have first : least = 1000 := atLeast.unique ⟨by simp, by simp [lowerBounds]⟩
  have final : most = 1120 := atMost.unique ⟨by simp, by simp [upperBounds]⟩
  have four : low = 4 := UInt64.toNat_inj.mp (by rw [modulo, work]; rfl)
  rw [first, final, four] at rate
  exact ⟨small, by omega, rate⟩

end Minutes
end HashRate
end Mintage
