import Mintage.Execution

/-! What the success of a sequence of steps says about the steps. Later proofs take a
run apart with these equivalences and never open a monad. -/

namespace Mintage.Sequencing

variable {ε σ α β : Type}

theorem bind_eq_ok {first : Except ε α} {next : α → Except ε β} {value : β} :
    first >>= next = .ok value ↔ ∃ middle, first = .ok middle ∧ next middle = .ok value := by
  cases first with
  | error cause => simp [bind, Except.bind]
  | ok middle => simp [bind, Except.bind]

theorem pure_eq_ok {value result : α} : (pure value : Except ε α) = .ok result ↔ value = result := by
  simp [pure, Except.pure]

theorem throw_eq_ok {cause : ε} {value : α} : (throw cause : Except ε α) = .ok value ↔ False := by
  simp [throw, throwThe, MonadExceptOf.throw]

theorem mapError_eq_ok {ε' : Type} {first : Except ε α} {name : ε → ε'} {value : α} :
    first.mapError name = .ok value ↔ first = .ok value := by
  cases first with
  | error cause =>
    constructor
    · intro run
      cases run
    · intro run
      cases run
  | ok result =>
    constructor
    · intro run
      cases run
      rfl
    · intro run
      cases run
      rfl

theorem guard_eq_ok {broken : Prop} [Decidable broken] {cause : ε} {next : PUnit → Except ε α} {value : α} :
    (if broken then (throw cause : Except ε PUnit) >>= next else next ⟨⟩) = .ok value ↔
      ¬ broken ∧ next ⟨⟩ = .ok value := by
  split
  next holds =>
    constructor
    · intro run
      cases run
    · intro both
      exact absurd holds both.1
  next fails => simp only [fails, not_false_eq_true, true_and]

theorem demand_eq_ok {kept : Prop} [Decidable kept] {cause : ε} {next : Except ε α} {value : α} :
    (if kept then next else throw cause) = .ok value ↔ kept ∧ next = .ok value := by
  split
  next holds => simp only [holds, true_and]
  next fails => simp only [fails, false_and, throw_eq_ok]

theorem refuse_eq_ok {broken : Prop} [Decidable broken] {cause : ε} {next : Except ε α} {value : α} :
    (if broken then throw cause else next) = .ok value ↔ ¬ broken ∧ next = .ok value := by
  split
  next holds => simp only [holds, not_true_eq_false, false_and, throw_eq_ok]
  next fails => simp only [fails, not_false_eq_true, true_and]

/-- A check that is made only where it is wanted. -/
theorem when_eq_ok {wanted : Prop} [Decidable wanted] {check : Except ε PUnit} {next : Except ε α} {value : α} :
    (if wanted then check >>= fun _ => next else next) = .ok value ↔ (wanted → check = .ok ⟨⟩) ∧ next = .ok value := by
  split
  next holds =>
    rw [bind_eq_ok]
    constructor
    · intro ⟨_, passed, later⟩
      exact ⟨fun _ => passed, later⟩
    · intro ⟨passed, later⟩
      exact ⟨⟨⟩, passed holds, later⟩
  next fails => simp only [fails, false_imp_iff, true_and]

theorem run_bind_eq_ok {first : EStateM ε σ α} {next : α → EStateM ε σ β} {state after : σ} {value : β} :
    (first >>= next) state = .ok value after ↔
      ∃ middle between, first state = .ok middle between ∧ next middle between = .ok value after := by
  simp only [bind, EStateM.bind]
  cases first state with
  | error cause between => simp
  | ok middle between =>
    constructor
    · intro run
      exact ⟨middle, between, rfl, run⟩
    · intro ⟨_, _, same, run⟩
      cases same
      exact run

theorem run_pure_eq_ok {value result : α} {state after : σ} :
    (pure value : EStateM ε σ α) state = .ok result after ↔ value = result ∧ state = after := by
  simp [pure, EStateM.pure]

theorem run_get_eq_ok {state value after : σ} :
    (get : EStateM ε σ σ) state = .ok value after ↔ state = value ∧ state = after := by
  constructor
  · intro run
    cases run
    exact ⟨rfl, rfl⟩
  · intro both
    cases both.1
    cases both.2
    rfl

theorem run_guard_eq_ok {broken : Prop} [Decidable broken] {cause : ε} {next : PUnit → EStateM ε σ α}
    {state after : σ} {value : α} :
    (if broken then (throw cause : EStateM ε σ PUnit) >>= next else next ⟨⟩) state = .ok value after ↔
      ¬ broken ∧ next ⟨⟩ state = .ok value after := by
  split
  next holds =>
    constructor
    · intro run
      cases run
    · intro both
      exact absurd holds both.1
  next fails => simp only [fails, not_false_eq_true, true_and]

theorem run_ofExcept_eq_ok {check : Except ε α} {value : α} {state after : σ} :
    (ofExcept check : EStateM ε σ α) state = .ok value after ↔ check = .ok value ∧ state = after := by
  cases check with
  | error cause =>
    constructor
    · intro run
      cases run
    · intro both
      cases both.1
  | ok result => simp [ofExcept, pure, EStateM.pure]

theorem run_adaptExcept_eq_ok {ε' : Type} {run : EStateM ε σ α} {name : ε → ε'} {value : α} {state after : σ} :
    EStateM.adaptExcept name run state = .ok value after ↔ run state = .ok value after := by
  simp only [EStateM.adaptExcept]
  cases run state with
  | error cause between => simp
  | ok result between => simp

theorem run_modifyGet_eq_ok {change : σ → α × σ} {value : α} {state after : σ} :
    (modifyGet change : EStateM ε σ α) state = .ok value after ↔ change state = (value, after) := by
  have run : (modifyGet change : EStateM ε σ α) state = .ok (change state).1 (change state).2 := rfl
  rw [run, EStateM.Result.ok.injEq, Prod.ext_iff]

theorem run_modify_eq_ok {change : σ → σ} {value : PUnit} {state after : σ} :
    (modify change : EStateM ε σ PUnit) state = .ok value after ↔ change state = after := by
  have run : (modify change : EStateM ε σ PUnit) state = .ok value (change state) := rfl
  rw [run, EStateM.Result.ok.injEq]
  simp only [true_and]

theorem run_get_bind {next : σ → EStateM ε σ β} {state : σ} :
    ((get : EStateM ε σ σ) >>= next) state = next state state :=
  rfl

theorem run_pure_bind {value : α} {next : α → EStateM ε σ β} {state : σ} :
    ((pure value : EStateM ε σ α) >>= next) state = next value state :=
  rfl

theorem run_modify_bind {change : σ → σ} {next : PUnit → EStateM ε σ β} {state : σ} :
    ((modify change : EStateM ε σ PUnit) >>= next) state = next ⟨⟩ (change state) :=
  rfl

theorem run_modifyGet_bind {change : σ → α × σ} {next : α → EStateM ε σ β} {state : σ} :
    ((modifyGet change : EStateM ε σ α) >>= next) state = next (change state).1 (change state).2 :=
  rfl

/-- Whatever the outcome is, the state in it satisfies `holds`. -/
inductive Leaves (holds : σ → Prop) : EStateM.Result ε σ α → Prop where
  | ok {value : α} {after : σ} (kept : holds after) : Leaves holds (.ok value after)
  | error {cause : ε} {after : σ} (kept : holds after) : Leaves holds (.error cause after)

section Leaves

variable {holds : σ → Prop} {state : σ}

theorem Leaves.bind {first : EStateM ε σ α} {next : α → EStateM ε σ β} (begins : Leaves holds (first state))
    (later : ∀ middle between, first state = .ok middle between → holds between → Leaves holds (next middle between)) :
    Leaves holds ((first >>= next) state) := by
  simp only [Bind.bind, EStateM.bind]
  generalize first state = outcome at begins later ⊢
  cases begins with
  | ok kept => exact later _ _ rfl kept
  | error kept => exact .error kept

theorem Leaves.map {run : EStateM ε σ α} (answer : α → β) (leaves : Leaves holds (run state)) :
    Leaves holds ((answer <$> run) state) := by
  simp only [Functor.map, EStateM.map]
  generalize run state = outcome at leaves ⊢
  cases leaves with
  | ok kept => exact .ok kept
  | error kept => exact .error kept

theorem Leaves.mono {weaker : σ → Prop} {outcome : EStateM.Result ε σ α} (leaves : Leaves holds outcome)
    (implies : ∀ after, holds after → weaker after) : Leaves weaker outcome := by
  cases leaves with
  | ok kept => exact .ok (implies _ kept)
  | error kept => exact .error (implies _ kept)

theorem Leaves.adaptExcept {ε' : Type} {run : EStateM ε σ α} (name : ε → ε') (leaves : Leaves holds (run state)) :
    Leaves holds (EStateM.adaptExcept name run state) := by
  simp only [EStateM.adaptExcept]
  generalize run state = outcome at leaves ⊢
  cases leaves with
  | ok kept => exact .ok kept
  | error kept => exact .error kept

theorem leaves_ofExcept (check : Except ε α) (kept : holds state) :
    Leaves holds ((ofExcept check : EStateM ε σ α) state) := by
  cases check with
  | ok value => exact .ok kept
  | error cause => exact .error kept

theorem leaves_guard {broken : Prop} {_ : Decidable broken} {cause : ε} {next : PUnit → EStateM ε σ α} (kept : holds state)
    (later : Leaves holds (next ⟨⟩ state)) :
    Leaves holds ((if broken then (throw cause : EStateM ε σ PUnit) >>= next else next ⟨⟩) state) := by
  split
  next => exact .error kept
  next => exact later

end Leaves

end Mintage.Sequencing
