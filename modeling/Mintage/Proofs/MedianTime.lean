import Mintage.Deployment
import Mintage.Proofs.ChainAncestors

/-! The median of the newest times. It moves up and down with the times of the headers, but never down
along a chain whose headers are no earlier than the median below them. -/

namespace Mintage.HeaderChain

variable {chain parent node : HeaderChain}

/-- The element of a sorted list at an index reaches a value exactly if no more elements than the index
stay below it. -/
theorem le_getElem_iff_countP_le {times : List Nat} (sorted : times.Pairwise (· ≤ ·)) {index : Nat}
    (inside : index < times.length) (value : Nat) : value ≤ times[index] ↔ times.countP (· < value) ≤ index := by
  induction times generalizing index with
  | nil => cases inside
  | cons first rest ih =>
    obtain ⟨least, others⟩ := List.pairwise_cons.1 sorted
    by_cases below : first < value
    · rw [List.countP_cons_of_pos (by simpa using below)]
      cases index with
      | zero =>
        rw [List.getElem_cons_zero]
        omega
      | succ index =>
        rw [List.getElem_cons_succ, ih others (by simpa using inside)]
        omega
    · have above : ∀ time ∈ first :: rest, value ≤ time := by
        intro time member
        rcases List.mem_cons.1 member with rfl | later
        · exact Nat.not_lt.1 below
        · exact Nat.le_trans (Nat.not_lt.1 below) (least time later)
      have none : (first :: rest).countP (· < value) = 0 := by
        rw [List.countP_eq_zero]
        intro time member
        simpa using above time member
      rw [none]
      exact iff_of_true (above _ (List.getElem_mem inside)) (Nat.zero_le index)

theorem back_eq_take (count : Nat) (chain : HeaderChain) : chain.back count = chain.ancestors.take count := by
  induction chain generalizing count with
  | genesis header => cases count <;> simp [back, ancestors]
  | extend parent header ih =>
    cases count with
    | zero => simp [back]
    | succ count => rw [back, ancestors, List.take_succ_cons, ih]

/-- The newest times, newest first. -/
def recentTimes (count : Nat) (chain : HeaderChain) : List Nat :=
  (chain.back count).map fun node => node.header.time.toNat

theorem recentTimes_succ_extend (count : Nat) (parent : HeaderChain) (header : BlockHeader) :
    (extend parent header).recentTimes (count + 1) = header.time.toNat :: parent.recentTimes count := rfl

theorem recentTimes_prefix_succ (count : Nat) (chain : HeaderChain) :
    chain.recentTimes count <+: chain.recentTimes (count + 1) := by
  rw [recentTimes, recentTimes, back_eq_take, back_eq_take]
  exact (List.take_prefix_take_left (Nat.le_succ count)).map _

theorem length_recentTimes_pos (count : Nat) (chain : HeaderChain) : 0 < (chain.recentTimes (count + 1)).length := by
  cases chain <;> simp [recentTimes, back]

/-- The median reaches a value exactly if at most half of the times are below it. -/
theorem le_medianTimePast_iff {value : Nat} :
    value ≤ chain.medianTimePast ↔
      (chain.recentTimes medianSpan).countP (· < value) ≤ (chain.recentTimes medianSpan).length / 2 := by
  have filled : 0 < (chain.recentTimes medianSpan).length := length_recentTimes_pos 10 chain
  have sorted : (chain.recentTimes medianSpan).mergeSort.Pairwise (· ≤ ·) := by
    have ordered : (chain.recentTimes medianSpan).mergeSort.Pairwise fun first second => decide (first ≤ second) := by
      refine List.pairwise_mergeSort ?_ ?_ _
      · simpa using fun _ _ _ => Nat.le_trans
      · simpa using Nat.le_total
    simpa using ordered
  have inside : (chain.recentTimes medianSpan).mergeSort.length / 2 <
      (chain.recentTimes medianSpan).mergeSort.length := by
    rw [List.length_mergeSort]
    omega
  have median : chain.medianTimePast = (chain.recentTimes medianSpan).mergeSort.get ⟨_, inside⟩ :=
    (List.getElem_eq_getD (h := inside) 0).symm
  rw [median, List.get_eq_getElem, le_getElem_iff_countP_le sorted inside, (List.mergeSort_perm _ _).countP_eq,
    List.length_mergeSort]

theorem medianTimePast_eq_iff {value : Nat} :
    chain.medianTimePast = value ↔
      (chain.recentTimes medianSpan).countP (· < value) ≤ (chain.recentTimes medianSpan).length / 2 ∧
        (chain.recentTimes medianSpan).length / 2 < (chain.recentTimes medianSpan).countP (· < value + 1) := by
  rw [← le_medianTimePast_iff, ← Nat.not_le, ← le_medianTimePast_iff]
  omega

/-- No time is past the end of the word, so none is past that value. -/
theorem medianTimePast_lt (chain : HeaderChain) : chain.medianTimePast < UInt32.size := by
  refine Nat.lt_of_not_le fun reached => ?_
  have none : (chain.recentTimes medianSpan).countP (· < UInt32.size) = (chain.recentTimes medianSpan).length := by
    rw [List.countP_eq_length]
    intro time member
    obtain ⟨node, _, rfl⟩ := List.mem_map.1 member
    exact decide_eq_true node.header.time.toNat_lt
  have filled : 0 < (chain.recentTimes medianSpan).length := length_recentTimes_pos 10 chain
  have half := le_medianTimePast_iff.1 reached
  omega

/-- Counting the earlier times decides a start at a median time. -/
theorem reached_medianTime (value : Nat) (chain : HeaderChain) :
    (Milestone.medianTime value).reached chain =
      decide ((chain.recentTimes medianSpan).countP (· < value) ≤ (chain.recentTimes medianSpan).length / 2) :=
  decide_eq_decide.2 le_medianTimePast_iff

/-- A header that is no earlier than the median does not let the median fall, although the oldest time
leaves the span. -/
theorem medianTimePast_le_extend {header : BlockHeader} (late : parent.medianTimePast ≤ header.time.toNat) :
    parent.medianTimePast ≤ (extend parent header).medianTimePast := by
  have before := le_medianTimePast_iff.1 (Nat.le_refl parent.medianTimePast)
  rw [le_medianTimePast_iff]
  have added : (extend parent header).recentTimes medianSpan = header.time.toNat :: parent.recentTimes 10 :=
    recentTimes_succ_extend 10 parent header
  have fewer := (recentTimes_prefix_succ 10 parent).sublist.countP_le (p := fun time => time < parent.medianTimePast)
  have shorter : (parent.recentTimes medianSpan).length ≤ (parent.recentTimes 10).length + 1 := by
    simp only [recentTimes, back_eq_take, List.length_map, List.length_take, medianSpan]
    omega
  rw [added, List.countP_cons_of_neg (by simpa using late), List.length_cons]
  calc (parent.recentTimes 10).countP (· < parent.medianTimePast)
      ≤ (parent.recentTimes medianSpan).countP (· < parent.medianTimePast) := fewer
    _ ≤ (parent.recentTimes medianSpan).length / 2 := before
    _ ≤ ((parent.recentTimes 10).length + 1) / 2 := Nat.div_le_div_right shorter

/-- No header is earlier than the median of those below it. -/
def KeepsPace : HeaderChain → Prop
  | genesis _ => True
  | extend parent header => parent.KeepsPace ∧ parent.medianTimePast ≤ header.time.toNat

theorem KeepsPace.medianTimePast_le (paced : chain.KeepsPace) (older : node ∈ chain.ancestors) :
    node.medianTimePast ≤ chain.medianTimePast := by
  induction chain with
  | genesis header =>
    cases List.mem_singleton.1 older
    exact Nat.le_refl _
  | extend parent header ih =>
    cases List.mem_cons.1 older with
    | inl same =>
      cases same
      exact Nat.le_refl _
    | inr below => exact Nat.le_trans (ih paced.1 below) (medianTimePast_le_extend paced.2)

theorem KeepsPace.of_mem_ancestors (paced : chain.KeepsPace) (older : node ∈ chain.ancestors) : node.KeepsPace := by
  induction chain with
  | genesis header =>
    cases List.mem_singleton.1 older
    exact paced
  | extend parent header ih =>
    cases List.mem_cons.1 older with
    | inl same =>
      cases same
      exact paced
    | inr below => exact ih paced.1 below

end Mintage.HeaderChain
