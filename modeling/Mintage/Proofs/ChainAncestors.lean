import Mintage.HeaderChain

/-! The headers below a header. Each height up to its own has exactly one of them, so walking down by
height, listing the newest and filtering the whole chain all name the same headers. -/

namespace Mintage.HeaderChain

variable {chain node : HeaderChain}

@[simp] theorem height_genesis (header : BlockHeader) : (genesis header).height = 0 := rfl

@[simp] theorem height_extend (parent : HeaderChain) (header : BlockHeader) :
    (extend parent header).height = parent.height + 1 := rfl

@[simp] theorem header_genesis (header : BlockHeader) : (genesis header).header = header := rfl

@[simp] theorem header_extend (parent : HeaderChain) (header : BlockHeader) :
    (extend parent header).header = header := rfl

theorem self_mem_ancestors (chain : HeaderChain) : chain ∈ chain.ancestors := by
  cases chain <;> simp [ancestors]

theorem height_le_of_mem_ancestors (older : node ∈ chain.ancestors) : node.height ≤ chain.height := by
  induction chain with
  | genesis header =>
    cases List.mem_singleton.1 older
    exact Nat.le_refl _
  | extend parent header ih =>
    cases List.mem_cons.1 older with
    | inl same =>
      cases same
      exact Nat.le_refl _
    | inr below => exact Nat.le_succ_of_le (ih below)

/-- The ancestors of an ancestor are those of no greater height. -/
theorem ancestors_eq_filter (older : node ∈ chain.ancestors) :
    node.ancestors = chain.ancestors.filter fun other => other.height ≤ node.height := by
  have self (tip : HeaderChain) : tip.ancestors = tip.ancestors.filter fun other => other.height ≤ tip.height := by
    symm
    rw [List.filter_eq_self]
    intro other below
    exact decide_eq_true (height_le_of_mem_ancestors below)
  induction chain with
  | genesis header =>
    cases List.mem_singleton.1 older
    exact self _
  | extend parent header ih =>
    cases List.mem_cons.1 older with
    | inl same =>
      cases same
      exact self _
    | inr below =>
      have lower := height_le_of_mem_ancestors below
      have outside : ¬ (extend parent header).height ≤ node.height := by
        rw [height_extend]
        omega
      rw [ih below, ancestors, List.filter_cons_of_neg (by simpa only [decide_eq_true_eq] using outside)]

theorem ancestors_subset (older : node ∈ chain.ancestors) : node.ancestors ⊆ chain.ancestors := by
  rw [ancestors_eq_filter older]
  exact List.filter_sublist.subset

/-- Of two headers on one chain the lower is below the other. -/
theorem mem_ancestors_of_height_le {lower : HeaderChain} (older : node ∈ chain.ancestors)
    (member : lower ∈ chain.ancestors) (below : lower.height ≤ node.height) : lower ∈ node.ancestors := by
  rw [ancestors_eq_filter older, List.mem_filter, decide_eq_true_eq]
  exact ⟨member, below⟩

theorem ancestor?_eq_some_iff {height : Nat} :
    chain.ancestor? height = some node ↔ node ∈ chain.ancestors ∧ node.height = height := by
  induction chain with
  | genesis header =>
    simp only [ancestor?, ancestors, List.mem_singleton]
    split
    next zero =>
      constructor
      · intro walk
        cases walk
        exact ⟨rfl, zero.symm⟩
      · intro both
        rw [both.1]
    next other =>
      constructor
      · intro walk
        cases walk
      · intro both
        rw [both.1] at both
        exact absurd both.2.symm other
  | extend parent header ih =>
    simp only [ancestor?, ancestors, List.mem_cons]
    split
    next low =>
      rw [ih]
      constructor
      · intro both
        exact ⟨.inr both.1, both.2⟩
      · intro both
        obtain ⟨same | below, landed⟩ := both
        · rw [same, height_extend] at landed
          omega
        · exact ⟨below, landed⟩
    next high =>
      split
      next top =>
        constructor
        · intro walk
          cases walk
          exact ⟨.inl rfl, top.symm⟩
        · intro both
          obtain ⟨same | below, landed⟩ := both
          · rw [same]
          · have lower := height_le_of_mem_ancestors below
            omega
      next outside =>
        constructor
        · intro walk
          cases walk
        · intro both
          obtain ⟨same | below, landed⟩ := both
          · rw [same, height_extend] at landed
            omega
          · have lower := height_le_of_mem_ancestors below
            omega

theorem exists_ancestor? {height : Nat} (low : height ≤ chain.height) :
    ∃ found, chain.ancestor? height = some found := by
  induction chain with
  | genesis header =>
    have zero : height = 0 := Nat.le_zero.1 low
    exact ⟨genesis header, by rw [ancestor?, if_pos zero]⟩
  | extend parent header ih =>
    simp only [ancestor?]
    split
    next below => exact ih below
    next above =>
      rw [height_extend] at low
      exact ⟨extend parent header, if_pos (by omega)⟩

/-- Walking down from an ancestor ends where walking down from the tip does. -/
theorem ancestor?_of_mem_ancestors {height : Nat} (older : node ∈ chain.ancestors) (low : height ≤ node.height) :
    node.ancestor? height = chain.ancestor? height := by
  obtain ⟨found, walk⟩ := exists_ancestor? low
  obtain ⟨below, landed⟩ := ancestor?_eq_some_iff.1 walk
  rw [walk]
  exact (ancestor?_eq_some_iff.2 ⟨ancestors_subset older below, landed⟩).symm

theorem back_eq_filter (count : Nat) (chain : HeaderChain) :
    chain.back count = chain.ancestors.filter fun other => chain.height < other.height + count := by
  induction chain generalizing count with
  | genesis header =>
    cases count with
    | zero => simp [back, ancestors]
    | succ count => simp [back, ancestors]
  | extend parent header ih =>
    cases count with
    | zero =>
      symm
      rw [back, List.filter_eq_nil_iff]
      intro other below
      have lower := height_le_of_mem_ancestors below
      simp only [decide_eq_true_eq]
      omega
    | succ count =>
      rw [back, ancestors, List.filter_cons_of_pos (by simp), ih]
      congr 1
      apply List.filter_congr
      intro other below
      apply decide_eq_decide.2
      rw [height_extend]
      omega

theorem length_back (count : Nat) (chain : HeaderChain) : (chain.back count).length = min count (chain.height + 1) := by
  induction chain generalizing count with
  | genesis header =>
    cases count with
    | zero => rfl
    | succ count =>
      rw [back, List.length_singleton, height_genesis]
      omega
  | extend parent header ih =>
    cases count with
    | zero => rw [back, List.length_nil, Nat.zero_min]
    | succ count => rw [back, List.length_cons, ih, height_extend, Nat.add_min_add_right]

/-- The newest headers below an ancestor, found in the whole chain by their heights. -/
theorem back_of_mem_ancestors (count : Nat) (older : node ∈ chain.ancestors) :
    node.back count =
      chain.ancestors.filter fun other => other.height ≤ node.height && node.height < other.height + count := by
  rw [back_eq_filter, ancestors_eq_filter older, List.filter_filter]
  apply List.filter_congr
  intro other below
  exact Bool.and_comm ..

/-- A header of the first list shares its hash with no other header of the second. -/
def HashesApart (first second : List HeaderChain) : Prop :=
  ∀ left ∈ first, ∀ right ∈ second, left.hash = right.hash → left = right

theorem HashesApart.of_subset {first second smaller : List HeaderChain} (apart : HashesApart first second)
    (inside : smaller ⊆ first) : HashesApart smaller second :=
  fun left member => apart left (inside member)

end Mintage.HeaderChain
