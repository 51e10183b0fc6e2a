/-!
# Labelled transition systems with guarded steps

A system is a set of initial states and a partial step function: `step state
action = none` means that the action cannot be taken, or that taking it ends the
process.  `Reach ok` collects the states of the runs in which every step meets
`ok` in the state it is taken from, so that a statement about all runs and a
statement about the runs that avoid some step are instances of one notion.
-/

namespace DistributedLab.Transition

structure System (σ : Type u) (α : Type v) where
  init : σ → Prop
  step : σ → α → Option σ

variable {σ : Type u} {α : Type v}

/-- The guard that lets every step through. -/
def anyStep : σ → α → Prop := fun _ _ => True

/-- Run a list of actions, stopping at the first one that does not meet `ok` or cannot be
    taken. -/
def System.exec (M : System σ α) (ok : σ → α → Bool) : σ → List α → Option σ
  | state, [] => some state
  | state, action :: actions =>
      if ok state action then (M.step state action).bind (M.exec ok · actions) else none

/-- States of the runs from `start` in which every step meets `ok`. -/
inductive System.Steps (M : System σ α) (ok : σ → α → Prop) (start : σ) : σ → Prop
  | refl : M.Steps ok start start
  | step {state next : σ} {action : α} (run : M.Steps ok start state)
      (guard : ok state action) (taken : M.step state action = some next) :
      M.Steps ok start next

/-- States reached from an initial state by steps that all meet `ok`. -/
def System.Reach (M : System σ α) (ok : σ → α → Prop) (state : σ) : Prop :=
  ∃ start, M.init start ∧ M.Steps ok start state

variable {M : System σ α} {ok : σ → α → Prop}

theorem System.Reach.init {state : σ} (h : M.init state) : M.Reach ok state :=
  ⟨state, h, .refl⟩

theorem System.Reach.step {state next : σ} {action : α} (h : M.Reach ok state)
    (guard : ok state action) (taken : M.step state action = some next) :
    M.Reach ok next := by
  obtain ⟨start, hinit, hrun⟩ := h
  exact ⟨start, hinit, hrun.step guard taken⟩

/-- **The invariant rule.**  A property of the initial states that every guarded
    step preserves holds in every state reached. -/
theorem System.Reach.invariant {P : σ → Prop} {state : σ} (h : M.Reach ok state)
    (base : ∀ start, M.init start → P start)
    (preserved : ∀ state next action, P state → ok state action →
      M.step state action = some next → P next) : P state := by
  obtain ⟨start, hinit, hrun⟩ := h
  induction hrun with
  | refl => exact base start hinit
  | step _ guard taken ih => exact preserved _ _ _ ih guard taken

theorem System.Steps.trans {first second third : σ} (h : M.Steps ok first second)
    (h' : M.Steps ok second third) : M.Steps ok first third := by
  induction h' with
  | refl => exact h
  | step _ guard taken ih => exact ih.step guard taken

theorem System.Steps.mono {ok' : σ → α → Prop} {start final : σ} (h : M.Steps ok start final)
    (hok : ∀ state action, ok state action → ok' state action) : M.Steps ok' start final := by
  induction h with
  | refl => exact .refl
  | step _ guard taken ih => exact ih.step (hok _ _ guard) taken

theorem System.Steps.of_exec {guard : σ → α → Bool}
    (sound : ∀ state action, guard state action = true → ok state action) :
    ∀ {actions : List α} {start final : σ},
      M.exec guard start actions = some final → M.Steps ok start final := by
  intro actions
  induction actions with
  | nil =>
      intro start final h
      simp only [System.exec, Option.some.injEq] at h
      subst h
      exact .refl
  | cons action actions ih =>
      intro start final h
      simp only [System.exec] at h
      by_cases hok : guard start action = true
      · rw [if_pos hok] at h
        rcases hstep : M.step start action with _ | next
        · rw [hstep] at h; simp at h
        · rw [hstep] at h
          have hfirst : M.Steps ok start next := .step .refl (sound _ _ hok) hstep
          exact hfirst.trans (ih h)
      · rw [if_neg hok] at h; simp at h

/-- A computed run reaches its final state: how a concrete run enters a statement about
    all runs. -/
theorem System.Reach.of_exec (guard : σ → α → Bool) (actions : List α) {start : σ}
    {view : σ → γ} {seen : γ} (hinit : M.init start)
    (sound : ∀ state action, guard state action = true → ok state action)
    (h : (M.exec guard start actions).map view = some seen) :
    ∃ final, M.Reach ok final ∧ view final = seen := by
  obtain ⟨final, hexec, hview⟩ := Option.map_eq_some_iff.mp h
  exact ⟨final, ⟨start, hinit, .of_exec sound hexec⟩, hview⟩

/-- The same from an initial state that is computed as well. -/
theorem System.Reach.of_start_exec (guard : σ → α → Bool) (actions : List α) {start : Option σ}
    {view : σ → γ} {seen : γ} (hinit : ∀ first ∈ start, M.init first)
    (sound : ∀ state action, guard state action = true → ok state action)
    (h : (start.bind fun first => M.exec guard first actions).map view = some seen) :
    ∃ final, M.Reach ok final ∧ view final = seen := by
  obtain ⟨final, hbind, hview⟩ := Option.map_eq_some_iff.mp h
  obtain ⟨first, hfirst, hexec⟩ := Option.bind_eq_some_iff.mp hbind
  exact ⟨final, ⟨first, hinit first hfirst, .of_exec sound hexec⟩, hview⟩

/-- **The rank rule.**  A run has no more counted steps than the rank of the state it starts in,
    if every counted step lowers the rank and no other raises it. -/
theorem System.countP_le_rank {P : σ → Prop} {rank : σ → Nat} {guard : σ → α → Bool}
    {counted : α → Bool}
    (falls : ∀ state next action, P state → guard state action = true →
      M.step state action = some next →
      P next ∧ rank next + (if counted action then 1 else 0) ≤ rank state) :
    ∀ {actions : List α} {start final : σ}, P start →
      M.exec guard start actions = some final →
      P final ∧ actions.countP counted + rank final ≤ rank start := by
  intro actions
  induction actions with
  | nil =>
      intro start final hP h
      obtain rfl := Option.some.inj h
      exact ⟨hP, by simp⟩
  | cons action actions ih =>
      intro start final hP h
      simp only [System.exec] at h
      split at h
      · next hguard =>
          obtain ⟨next, hstep, hrest⟩ := Option.bind_eq_some_iff.mp h
          obtain ⟨hnext, hlower⟩ := falls start next action hP hguard hstep
          obtain ⟨hfinal, hcount⟩ := ih hnext hrest
          exact ⟨hfinal, by rw [List.countP_cons]; omega⟩
      · cases h

/-- Every step is counted. -/
theorem System.length_le_rank {P : σ → Prop} {rank : σ → Nat} {guard : σ → α → Bool}
    (falls : ∀ state next action, P state → guard state action = true →
      M.step state action = some next → P next ∧ rank next < rank state)
    {actions : List α} {start final : σ} (hstart : P start)
    (h : M.exec guard start actions = some final) :
    P final ∧ actions.length + rank final ≤ rank start := by
  have hcount : P final ∧ actions.countP (fun _ => true) + rank final ≤ rank start :=
    System.countP_le_rank falls hstart h
  rwa [List.countP_true] at hcount

/-! ### Machines with results

A machine gives each call a result; `none` stands for a call that does not return. -/

section Results

variable {τ : Type w} {ι : Type x} {κ : Type y} {ω : Type z}

/-- The results of the calls, one after the other. -/
def results (step : σ → ι → Option (ω × σ)) : σ → List ι → Option (List ω × σ)
  | state, [] => some ([], state)
  | state, input :: inputs =>
      (step state input).bind fun out =>
        (results step out.2 inputs).map fun rest => (out.1 :: rest.1, rest.2)

theorem results_cons {step : σ → ι → Option (ω × σ)} {state next final : σ} {input : ι}
    {inputs : List ι} {out : ω} {outs : List ω} (hstep : step state input = some (out, next))
    (hrest : results step next inputs = some (outs, final)) :
    results step state (input :: inputs) = some (out :: outs, final) := by
  simp [results, hstep, hrest]

theorem results_append {step : σ → ι → Option (ω × σ)} {state next final : σ}
    {inputs more : List ι} {outs rest : List ω}
    (h : results step state inputs = some (outs, next))
    (hrest : results step next more = some (rest, final)) :
    results step state (inputs ++ more) = some (outs ++ rest, final) := by
  induction inputs generalizing state outs with
  | nil =>
      cases h
      exact hrest
  | cons input inputs ih =>
      obtain ⟨⟨out, between⟩, hout, houts⟩ := Option.bind_eq_some_iff.mp h
      obtain ⟨⟨later, last⟩, hlater, heq⟩ := Option.map_eq_some_iff.mp houts
      cases heq
      exact results_cons hout (ih hlater)

/-- **The progress rule.**  `P` relates a state to the calls that are still to come.  If it lets
    the first of them return, with a result that is in `Q`, and holds of the others again, then
    the whole sequence returns. -/
theorem results_progress {step : σ → ι → Option (ω × σ)} {P : σ → List ι → Prop} {Q : ω → Prop}
    (hstep : ∀ state input inputs, P state (input :: inputs) →
      ∃ out next, step state input = some (out, next) ∧ Q out ∧ P next inputs)
    {state : σ} {inputs : List ι} (h : P state inputs) :
    ∃ outs final, results step state inputs = some (outs, final) ∧ (∀ out ∈ outs, Q out) ∧
      P final [] := by
  induction inputs generalizing state with
  | nil => exact ⟨[], state, rfl, List.forall_mem_nil Q, h⟩
  | cons input inputs ih =>
      obtain ⟨out, next, hout, hQ, hnext⟩ := hstep state input inputs h
      obtain ⟨outs, final, houts, hall, hfinal⟩ := ih hnext
      exact ⟨out :: outs, final, results_cons hout houts, List.forall_mem_cons.mpr ⟨hQ, hall⟩,
        hfinal⟩

/-- A call has the same result in two states, which are related again afterwards. -/
def Agree (step : σ → ι → Option (ω × σ)) (spec : τ → κ → Option (ω × τ)) (related : σ → τ → Prop)
    (state : σ) (abstract : τ) (input : ι) (call : κ) : Prop :=
  ∃ out next abstract', step state input = some (out, next) ∧
    spec abstract call = some (out, abstract') ∧ related next abstract'

/-- **The refinement rule.**  If related states agree on each call, then they give the same
    results to the whole sequence of calls. -/
theorem results_refine {step : σ → ι → Option (ω × σ)} {spec : τ → κ → Option (ω × τ)}
    {related : σ → τ → Prop} {call : ι → κ} {inputs : List ι}
    (hstep : ∀ input ∈ inputs, ∀ state abstract, related state abstract →
      Agree step spec related state abstract input (call input))
    {state : σ} {abstract : τ} (h : related state abstract) :
    ∃ outs final abstract', results step state inputs = some (outs, final) ∧
      results spec abstract (inputs.map call) = some (outs, abstract') ∧
      related final abstract' := by
  induction inputs generalizing state abstract with
  | nil => exact ⟨[], state, abstract, rfl, rfl, h⟩
  | cons input inputs ih =>
      obtain ⟨out, next, between, hout, hspec, hnext⟩ :=
        hstep input List.mem_cons_self state abstract h
      obtain ⟨outs, final, abstract', houts, hspecs, hfinal⟩ :=
        ih (fun later hlater => hstep later (List.mem_cons_of_mem _ hlater)) hnext
      exact ⟨out :: outs, final, abstract', results_cons hout houts, results_cons hspec hspecs,
        hfinal⟩

/-- **The simulation rule**, for a specification that does not take every call: as long as it takes
    the calls, the machine gives its results. -/
theorem results_simulate {step : σ → ι → Option (ω × σ)} {spec : τ → κ → Option (ω × τ)}
    {related : σ → τ → Prop} {call : ι → κ}
    (hstep : ∀ state abstract input out abstract', related state abstract →
      spec abstract (call input) = some (out, abstract') →
      ∃ next, step state input = some (out, next) ∧ related next abstract')
    {inputs : List ι} {state : σ} {abstract abstract' : τ} {outs : List ω}
    (h : related state abstract)
    (hspec : results spec abstract (inputs.map call) = some (outs, abstract')) :
    ∃ final, results step state inputs = some (outs, final) ∧ related final abstract' := by
  induction inputs generalizing state abstract outs with
  | nil =>
      cases hspec
      exact ⟨state, rfl, h⟩
  | cons input inputs ih =>
      obtain ⟨⟨out, between⟩, hout, hrest⟩ := Option.bind_eq_some_iff.mp hspec
      obtain ⟨⟨rest, last⟩, hlast, heq⟩ := Option.map_eq_some_iff.mp hrest
      cases heq
      obtain ⟨next, hnext, hrelated⟩ := hstep state abstract input out between h hout
      obtain ⟨final, hfinal, hend⟩ := ih hrelated hlast
      exact ⟨final, results_cons hnext hfinal, hend⟩

/-- What holds of each result holds of the results of a sequence. -/
theorem forall_mem_results {step : σ → ι → Option (ω × σ)} {P : ω → Prop}
    (hstep : ∀ state input out next, step state input = some (out, next) → P out) :
    ∀ {inputs : List ι} {state final : σ} {outs : List ω},
      results step state inputs = some (outs, final) → ∀ out ∈ outs, P out := by
  intro inputs
  induction inputs with
  | nil =>
      intro state final outs h
      cases h
      exact List.forall_mem_nil P
  | cons input inputs ih =>
      intro state final outs h
      obtain ⟨⟨out, next⟩, hout, hrest⟩ := Option.bind_eq_some_iff.mp h
      obtain ⟨⟨rest, last⟩, hlast, heq⟩ := Option.map_eq_some_iff.mp hrest
      cases heq
      exact List.forall_mem_cons.mpr ⟨hstep state input out next hout, ih hlast⟩

end Results

end DistributedLab.Transition
