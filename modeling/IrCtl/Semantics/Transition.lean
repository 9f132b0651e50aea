import Mathlib.Logic.Basic
import Mathlib.Data.List.Induction
import Mathlib.Algebra.GroupWithZero.Nat

/-!
# Labelled transitions

Runs of a system given by a partial step function, the two ways of speaking
about all the states and all the steps of a run, and simulation.

A label that is not enabled ends the run: `Visits` and `Meets` then speak about
the part of the run that was executed.
-/

namespace Transition

universe u v

variable {σ : Type u} {α : Type v}

/-- The state a list of labels leads to, if every label is enabled in turn. -/
def run (step : σ → α → Option σ) : σ → List α → Option σ
  | s, [] => some s
  | s, a :: as => (step s a).bind fun t => run step t as

/-- `Q` holds in every state visited. -/
def Visits (step : σ → α → Option σ) (Q : σ → Prop) : σ → List α → Prop
  | s, [] => Q s
  | s, a :: as => Q s ∧ ∀ t, step s a = some t → Visits step Q t as

/-- `P` holds of every step taken, read in the state before the step. -/
def Meets (step : σ → α → Option σ) (P : σ → α → Prop) : σ → List α → Prop
  | _, [] => True
  | s, a :: as => ∀ t, step s a = some t → P s a ∧ Meets step P t as

section Runs

variable {step : σ → α → Option σ}

@[simp] theorem run_nil (s : σ) : run step s [] = some s := rfl

theorem run_cons (s : σ) (a : α) (as : List α) :
    run step s (a :: as) = (step s a).bind fun t => run step t as := rfl

theorem run_cons_some (s u : σ) (a : α) (as : List α) :
    run step s (a :: as) = some u ↔ ∃ t, step s a = some t ∧ run step t as = some u := by
  rw [run_cons, Option.bind_eq_some_iff]

theorem run_append (s : σ) (as bs : List α) :
    run step s (as ++ bs) = (run step s as).bind fun t => run step t bs := by
  induction as generalizing s with
  | nil => rfl
  | cons a as ih =>
    rw [List.cons_append, run_cons, run_cons]
    cases step s a with
    | none => rfl
    | some t => exact ih t

theorem run_append_some (s u : σ) (as bs : List α) :
    run step s (as ++ bs) = some u ↔
      ∃ t, run step s as = some t ∧ run step t bs = some u := by
  rw [run_append, Option.bind_eq_some_iff]

theorem run_invariant {I : σ → Prop}
    (preserved : ∀ s a t, I s → step s a = some t → I t)
    {s t : σ} {as : List α} (initial : I s) (reached : run step s as = some t) : I t := by
  induction as generalizing s with
  | nil =>
    cases reached
    exact initial
  | cons a as ih =>
    obtain ⟨m, stepped, rest⟩ := (run_cons_some s t a as).mp reached
    exact ih (preserved s a m initial stepped) rest

/-- A step from a state already known to be reached need keep the invariant only
there. -/
theorem run_invariant_of_reached {I : σ → Prop} {s₀ t : σ}
    (preserved : ∀ as s a s', run step s₀ as = some s → I s → step s a = some s' → I s')
    {as : List α} (initial : I s₀) (reached : run step s₀ as = some t) : I t := by
  induction as using List.reverseRecOn generalizing t with
  | nil =>
    cases reached
    exact initial
  | append_singleton as a ih =>
    obtain ⟨s, before, last⟩ := (run_append_some s₀ t as [a]).mp reached
    obtain ⟨_, stepped, same⟩ := (run_cons_some s t a []).mp last
    cases same
    exact preserved as s a _ before (ih before) stepped

section Ghost

universe w

variable {γ : Type w}

/-- What an observer has noted of a run, each step in the state before it. -/
def ghost (step : σ → α → Option σ) (note : γ → σ → α → γ) : γ → σ → List α → γ
  | c, _, [] => c
  | c, s, a :: as => (step s a).elim c fun t => ghost step note (note c s a) t as

variable {note : γ → σ → α → γ}

theorem ghost_append_singleton {c : γ} {s m t : σ} {as : List α} {a : α}
    (before : run step s as = some m) (stepped : step m a = some t) :
    ghost step note c s (as ++ [a]) = note (ghost step note c s as) m a := by
  induction as generalizing s c with
  | nil =>
    cases before
    simp [ghost, stepped]
  | cons b as ih =>
    obtain ⟨u, first, rest⟩ := (run_cons_some s m b as).mp before
    simpa only [List.cons_append, ghost, first, Option.elim_some] using ih rest

/-- An invariant of the state, of the labels that have led to it and of what has
been noted on the way. -/
theorem run_history_ghost (note : γ → σ → α → γ) {I : List α → σ → γ → Prop}
    (preserved : ∀ as s a t c, I as s c → step s a = some t → I (as ++ [a]) t (note c s a))
    {s t : σ} {c : γ} (initial : I [] s c) {as : List α} (reached : run step s as = some t) :
    I as t (ghost step note c s as) := by
  induction as using List.reverseRecOn generalizing t with
  | nil =>
    cases reached
    exact initial
  | append_singleton as a ih =>
    obtain ⟨m, before, last⟩ := (run_append_some s t as [a]).mp reached
    obtain ⟨_, stepped, same⟩ := (run_cons_some m t a []).mp last
    cases same
    rw [ghost_append_singleton before stepped]
    exact preserved as m a _ _ (ih before) stepped

/-- An invariant of the state and of what has been noted. -/
theorem run_ghost {I : σ → γ → Prop}
    (preserved : ∀ s a t c, I s c → step s a = some t → I t (note c s a))
    {s t : σ} {c : γ} (initial : I s c) {as : List α} (reached : run step s as = some t) :
    I t (ghost step note c s as) :=
  run_history_ghost note (I := fun _ => I) (fun _ => preserved) initial reached

end Ghost

/-- An invariant of the state and of the labels that have led to it. -/
theorem run_history {I : List α → σ → Prop}
    (preserved : ∀ as s a s', I as s → step s a = some s' → I (as ++ [a]) s')
    {s t : σ} (initial : I [] s) {as : List α} (reached : run step s as = some t) : I as t :=
  -- nothing is noted
  run_history_ghost (fun _ _ _ => ()) (I := fun as s _ => I as s) (c := ())
    (fun as s a s' _ => preserved as s a s') initial reached

/-- An invariant kept by the steps that meet a condition holds in every state
of a run all of whose steps meet it. -/
theorem visits_of_meets {P : σ → α → Prop} {I Q : σ → Prop}
    (preserved : ∀ s a t, I s → P s a → step s a = some t → I t)
    (implies : ∀ s, I s → Q s)
    {s : σ} {as : List α} (initial : I s) (met : Meets step P s as) : Visits step Q s as := by
  induction as generalizing s with
  | nil => exact implies s initial
  | cons a as ih =>
    refine ⟨implies s initial, fun t stepped => ?_⟩
    obtain ⟨here, later⟩ := met t stepped
    exact ih (preserved s a t initial here stepped) later

/-- Converse: when a step that breaks the condition makes `Q` fail at once,
a run that never leaves `Q` meets the condition everywhere. -/
theorem meets_of_visits {P : σ → α → Prop} {I Q : σ → Prop}
    (preserved : ∀ s a t, I s → step s a = some t → I t)
    (breaks : ∀ s a t, I s → step s a = some t → Q t → P s a)
    {s : σ} {as : List α} (initial : I s) (visited : Visits step Q s as) : Meets step P s as := by
  induction as generalizing s with
  | nil => trivial
  | cons a as ih =>
    intro t stepped
    have later := visited.2 t stepped
    have here : Q t := by
      cases as with
      | nil => exact later
      | cons b bs => exact later.1
    exact ⟨breaks s a t initial stepped here, ih (preserved s a t initial stepped) later⟩

theorem meets_of_labels {P : σ → α → Prop} {as : List α} (all : ∀ a ∈ as, ∀ s, P s a) (s : σ) :
    Meets step P s as := by
  induction as generalizing s with
  | nil => trivial
  | cons a as ih =>
    intro t _
    exact ⟨all a List.mem_cons_self s, ih (fun b member => all b (List.mem_cons_of_mem a member)) t⟩

instance decidableMeets {P : σ → α → Prop} [∀ s a, Decidable (P s a)] :
    ∀ s as, Decidable (Meets step P s as)
  | _, [] => isTrue trivial
  | s, a :: as =>
    match stepped : step s a with
    | none => isTrue fun t other => by rw [stepped] at other; cases other
    | some t =>
      have : Decidable (Meets step P t as) := decidableMeets t as
      decidable_of_iff (P s a ∧ Meets step P t as)
        ⟨fun met u other => by rw [stepped] at other; cases other; exact met,
          fun met => met t stepped⟩

theorem visits_last {Q : σ → Prop} {s t : σ} {as : List α}
    (visited : Visits step Q s as) (reached : run step s as = some t) : Q t := by
  induction as generalizing s with
  | nil =>
    cases reached
    exact visited
  | cons a as ih =>
    obtain ⟨m, stepped, rest⟩ := (run_cons_some s t a as).mp reached
    exact ih (visited.2 m stepped) rest

/-- Two predicates that agree in the states of an invariant hold throughout the
same runs. -/
theorem visits_congr {I Q R : σ → Prop} (agree : ∀ s, I s → (Q s ↔ R s))
    (preserved : ∀ s a t, I s → step s a = some t → I t)
    {s : σ} (initial : I s) (as : List α) : Visits step Q s as ↔ Visits step R s as := by
  induction as generalizing s with
  | nil => exact agree s initial
  | cons a as ih =>
    refine and_congr (agree s initial) (forall_congr' fun t => forall_congr' fun stepped => ?_)
    exact ih (preserved s a t initial stepped)

/-- Two conditions that agree in the states of an invariant are met by the same
runs. -/
theorem meets_congr {I : σ → Prop} {P Q : σ → α → Prop} (agree : ∀ s a, I s → (P s a ↔ Q s a))
    (preserved : ∀ s a t, I s → step s a = some t → I t)
    {s : σ} (initial : I s) (as : List α) : Meets step P s as ↔ Meets step Q s as := by
  induction as generalizing s with
  | nil => exact Iff.rfl
  | cons a as ih =>
    refine forall_congr' fun t => forall_congr' fun stepped => and_congr (agree s a initial) ?_
    exact ih (preserved s a t initial stepped)

theorem meets_last {P : σ → α → Prop} {s t u : σ} {as : List α} {a : α}
    (met : Meets step P s (as ++ [a])) (reached : run step s as = some t)
    (stepped : step t a = some u) : P t a := by
  induction as generalizing s with
  | nil =>
    cases reached
    exact (met u stepped).1
  | cons b as ih =>
    obtain ⟨m, first, rest⟩ := (run_cons_some s t b as).mp reached
    exact ih (met m first).2 rest

/-- The steps taken in a run are those behind the runs to its parts. -/
theorem meets_iff_forall {P : σ → α → Prop} {s : σ} {as : List α} :
    Meets step P s as ↔ ∀ bs a t u, bs ++ [a] <+: as → run step s bs = some t →
      step t a = some u → P t a := by
  induction as generalizing s with
  | nil =>
    refine iff_of_true trivial fun bs a t u pre => ?_
    exact absurd (List.prefix_nil.mp pre) (by simp)
  | cons a as ih =>
    constructor
    · intro met bs b t u pre reached stepped
      cases bs with
      | nil =>
        obtain ⟨rfl, -⟩ := List.cons_prefix_cons.mp pre
        cases reached
        exact (met u stepped).1
      | cons c bs =>
        obtain ⟨rfl, rest⟩ := List.cons_prefix_cons.mp pre
        obtain ⟨m, first, later⟩ := (run_cons_some s t c bs).mp reached
        exact ih.mp (met m first).2 bs b t u rest later stepped
    · intro all t stepped
      refine ⟨all [] a s t (by simp) rfl stepped, ih.mpr fun bs b m u pre reached next => ?_⟩
      refine all (a :: bs) b m u (List.cons_prefix_cons.mpr ⟨rfl, pre⟩) ?_ next
      exact (run_cons_some s m a bs).mpr ⟨t, stepped, reached⟩

/-- A condition that an invariant of the history reads off the labels before a
step is met by the runs in which the labels that are carried out meet it. -/
theorem meets_iff_labels {P : σ → α → Prop} {Q : List α → α → Prop} {I : List α → σ → Prop} {s : σ}
    (agree : ∀ bs a t u, I bs t → step t a = some u → (P t a ↔ Q bs a))
    (preserved : ∀ bs t a u, I bs t → step t a = some u → I (bs ++ [a]) u) (initial : I [] s)
    (as : List α) :
    Meets step P s as ↔
      ∀ bs a, bs ++ [a] <+: as → (run step s (bs ++ [a])).isSome → Q bs a := by
  rw [meets_iff_forall]
  constructor
  · intro all bs a pre carried
    obtain ⟨u, ran⟩ := Option.isSome_iff_exists.mp carried
    obtain ⟨t, reached, last⟩ := (run_append_some s u bs [a]).mp ran
    obtain ⟨_, stepped, -⟩ := (run_cons_some t u a []).mp last
    exact (agree bs a t _ (run_history preserved initial reached) stepped).mp
      (all bs a t _ pre reached stepped)
  · intro all bs a t u pre reached stepped
    refine (agree bs a t u (run_history preserved initial reached) stepped).mpr (all bs a pre ?_)
    rw [run_append, reached, Option.bind_some, run_cons, stepped]
    rfl

/-- What holds at the end of every run holds throughout every run. -/
theorem visits_of_reached {Q : σ → Prop} {s : σ}
    (everywhere : ∀ as t, run step s as = some t → Q t) (as : List α) : Visits step Q s as := by
  induction as generalizing s with
  | nil => exact everywhere [] s rfl
  | cons a as ih =>
    refine ⟨everywhere [] s rfl, fun t stepped => ih fun bs u reached => ?_⟩
    exact everywhere (a :: bs) u ((run_cons_some s u a bs).mpr ⟨t, stepped, reached⟩)

/-- Amortized counting: what the steps of a run cost is covered by what was there
at first and what the steps have gained, if each step leaves its own balance. -/
theorem run_paid {Has : σ → Nat → Prop} {cost gain : α → Nat}
    (pays : ∀ s a t n, Has s n → step s a = some t → ∃ m, Has t m ∧ m + cost a ≤ n + gain a)
    {s t : σ} {n : Nat} (initial : Has s n) {as : List α} (reached : run step s as = some t) :
    ∃ m, Has t m ∧ m + (as.map cost).sum ≤ n + (as.map gain).sum := by
  induction as generalizing s n with
  | nil =>
    cases reached
    exact ⟨n, initial, Nat.le_refl _⟩
  | cons a as ih =>
    obtain ⟨u, stepped, rest⟩ := (run_cons_some s t a as).mp reached
    obtain ⟨n', has, first⟩ := pays s a u n initial stepped
    obtain ⟨m, final, later⟩ := ih has rest
    refine ⟨m, final, ?_⟩
    simp only [List.map_cons, List.sum_cons]
    omega

end Runs

/-! ### Total systems -/

section Total

variable {f : σ → α → σ} {P : σ → α → Prop}

/-- `P` holds of every step of a run that cannot get stuck, read in the state
before the step. -/
def Each (f : σ → α → σ) (P : σ → α → Prop) (s : σ) (as : List α) : Prop :=
  ∀ before a, before ++ [a] <+: as → P (before.foldl f s) a

theorem each_nil (s : σ) : Each f P s [] := by
  intro before a pre
  have empty := List.prefix_nil.mp pre
  exact absurd empty (by simp)

theorem each_cons (s : σ) (a : α) (as : List α) :
    Each f P s (a :: as) ↔ P s a ∧ Each f P (f s a) as := by
  constructor
  · intro each
    refine ⟨each [] a (by simp), fun before b pre => ?_⟩
    exact each (a :: before) b (List.cons_prefix_cons.mpr ⟨rfl, pre⟩)
  · rintro ⟨here, later⟩ before b pre
    cases before with
    | nil =>
      obtain ⟨same, -⟩ := List.cons_prefix_cons.mp pre
      rw [same]
      exact here
    | cons c before =>
      obtain ⟨rfl, rest⟩ := List.cons_prefix_cons.mp pre
      exact later before b rest

/-- A condition on the labels alone need not be read along the run. -/
theorem each_iff_forall_mem {Q : α → Prop} (pointwise : ∀ s a, P s a ↔ Q a) (s : σ) (as : List α) :
    Each f P s as ↔ ∀ a ∈ as, Q a := by
  induction as generalizing s with
  | nil => simp [each_nil]
  | cons a as ih => rw [each_cons, ih, pointwise, List.forall_mem_cons]

/-- Two conditions that agree in the states of an invariant, which the steps
meeting them keep, hold of the same runs. -/
theorem each_congr {Q : σ → α → Prop} {I : σ → Prop}
    (agree : ∀ s a, I s → (P s a ↔ Q s a)) (preserved : ∀ s a, I s → Q s a → I (f s a))
    {s : σ} (initial : I s) (as : List α) : Each f P s as ↔ Each f Q s as := by
  induction as generalizing s with
  | nil => simp [each_nil]
  | cons a as ih =>
    rw [each_cons, each_cons, agree s a initial]
    exact and_congr_right fun here => ih (preserved s a initial here)

/-! ### What an observer sees -/

section View

universe w'

variable {ν : Type w'} {view : σ → ν} {keep : α → Bool}

/-- Where the view of a step depends on the view before it, and a label that is
not kept does not change the view, two runs that agree on the labels kept look
alike. -/
theorem view_foldl_of_filter
    (locally : ∀ s t a, view s = view t → view (f s a) = view (f t a))
    (silent : ∀ s a, keep a = false → view (f s a) = view s)
    {s t : σ} (alike : view s = view t) {as bs : List α} (same : as.filter keep = bs.filter keep) :
    view (as.foldl f s) = view (bs.foldl f t) := by
  have purged : ∀ (as : List α) (s t : σ), view s = view t →
      view (as.foldl f s) = view ((as.filter keep).foldl f t) := by
    intro as
    induction as with
    | nil => exact fun s t alike => alike
    | cons a as ih =>
      intro s t alike
      rw [List.foldl_cons, List.filter_cons]
      cases kept : keep a with
      | true =>
        rw [if_pos rfl, List.foldl_cons]
        exact ih _ _ (locally s t a alike)
      | false => exact ih _ _ ((silent s a kept).trans alike)
  rw [purged as s t alike, same, ← purged bs t t rfl]

end View

end Total

section Simulation

universe u' v'

variable {τ : Type u'} {β : Type v'} {step : σ → α → Option σ} {spec : τ → β → Option τ}

/-- `R` is a forward simulation: each concrete step is answered by some abstract
steps, possibly none. -/
def Simulates (step : σ → α → Option σ) (spec : τ → β → Option τ) (R : σ → τ → Prop) : Prop :=
  ∀ s a s' t, R s t → step s a = some s' → ∃ bs t', run spec t bs = some t' ∧ R s' t'

theorem Simulates.run {R : σ → τ → Prop} (simulates : Simulates step spec R)
    {s s' : σ} {t : τ} {as : List α} (related : R s t)
    (reached : run step s as = some s') : ∃ bs t', run spec t bs = some t' ∧ R s' t' := by
  induction as generalizing s t with
  | nil =>
    cases reached
    exact ⟨[], t, rfl, related⟩
  | cons a as ih =>
    obtain ⟨m, stepped, rest⟩ := (run_cons_some s s' a as).mp reached
    obtain ⟨bs, n, first, between⟩ := simulates s a m t related stepped
    obtain ⟨cs, t', second, final⟩ := ih between rest
    exact ⟨bs ++ cs, t', (run_append_some t t' bs cs).mpr ⟨n, first, second⟩, final⟩

end Simulation

end Transition
