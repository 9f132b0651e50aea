import Mathlib.Logic.Function.Basic

/-!
# Programs over a shared store

A program is a tree of operations: each node names an operation and continues
with its result. The same program is run alone (`exec`), specified by
pre- and postconditions (`Keeps`), reduced to the operations an observer can
see (`erase`), and interleaved with others (`Pool`).
-/

/-- A program that performs operations `o : Op`, each answered in `Res o`. -/
inductive Program (Op : Type) (Res : Op → Type) (α : Type) : Type
  | ret (a : α)
  | op (o : Op) (k : Res o → Program Op Res α)

namespace Program

variable {Op : Type} {Res : Op → Type} {α β : Type} {σ : Type}

def bind : Program Op Res α → (α → Program Op Res β) → Program Op Res β
  | .ret a, f => f a
  | .op o k, f => .op o fun r => (k r).bind f

instance : Monad (Program Op Res) where
  pure := .ret
  bind := bind

@[simp] theorem pure_eq (a : α) : (pure a : Program Op Res α) = .ret a := rfl

@[simp] theorem ret_bind (a : α) (f : α → Program Op Res β) : (.ret a >>= f) = f a := rfl

@[simp] theorem op_bind (o : Op) (k : Res o → Program Op Res α) (f : α → Program Op Res β) :
    (.op o k >>= f) = .op o fun r => k r >>= f := rfl

/-! ### Running a program alone -/

/-- The result of a program and the store it leaves, no other program interfering. -/
def exec (h : (o : Op) → σ → Res o × σ) : Program Op Res α → σ → α × σ
  | .ret a, s => (a, s)
  | .op o k, s => (k (h o s).1).exec h (h o s).2

section Exec

variable (h : (o : Op) → σ → Res o × σ)

@[simp] theorem exec_ret (a : α) (s : σ) : exec h (.ret a : Program Op Res α) s = (a, s) := rfl

@[simp] theorem exec_op (o : Op) (k : Res o → Program Op Res α) (s : σ) :
    exec h (.op o k) s = (k (h o s).1).exec h (h o s).2 := rfl

@[simp] theorem exec_bind (p : Program Op Res α) (f : α → Program Op Res β) (s : σ) :
    exec h (p >>= f) s = (f (p.exec h s).1).exec h (p.exec h s).2 := by
  induction p generalizing s with
  | ret a => rfl
  | op o k ih => exact ih (h o s).1 (h o s).2

end Exec

/-! ### Pre- and postconditions -/

/-- Every operation of the program, performed in a store that satisfies `I`,
leaves such a store, and the program returns only values in `Q`. -/
def Keeps (h : (o : Op) → σ → Res o × σ) (I : σ → Prop) (Q : α → Prop) : Program Op Res α → Prop
  | .ret a => Q a
  | .op o k => ∀ s, I s → I (h o s).2 ∧ (k (h o s).1).Keeps h I Q

section Keeps

variable {h : (o : Op) → σ → Res o × σ} {I : σ → Prop} {Q : α → Prop} {S : β → Prop}

@[simp] theorem keeps_ret (a : α) : (.ret a : Program Op Res α).Keeps h I Q ↔ Q a := Iff.rfl

@[simp] theorem keeps_op (o : Op) (k : Res o → Program Op Res α) :
    (Program.op o k).Keeps h I Q ↔ ∀ s, I s → I (h o s).2 ∧ (k (h o s).1).Keeps h I Q := Iff.rfl

/-- The sequencing rule. -/
theorem Keeps.bind {p : Program Op Res α} {f : α → Program Op Res β}
    (first : p.Keeps h I Q) (rest : ∀ a, Q a → (f a).Keeps h I S) : (p >>= f).Keeps h I S := by
  induction p with
  | ret a => exact rest a first
  | op o k ih => exact fun s kept => ⟨(first s kept).1, ih _ (first s kept).2⟩

theorem Keeps.exec {p : Program Op Res α} (keeps : p.Keeps h I Q) {s : σ} (initial : I s) :
    I (p.exec h s).2 ∧ Q (p.exec h s).1 := by
  induction p generalizing s with
  | ret a => exact ⟨initial, keeps⟩
  | op o k ih => exact ih _ (keeps s initial).2 (keeps s initial).1

end Keeps

/-! ### The operations performed -/

/-- Every operation the program may perform is in `P`, every value it may return
in `Q`, whatever the answers. -/
def Performs (P : Op → Prop) (Q : α → Prop) : Program Op Res α → Prop
  | .ret a => Q a
  | .op o k => P o ∧ ∀ r, (k r).Performs P Q

section Performs

variable {P P' : Op → Prop} {Q : α → Prop} {S : β → Prop}

@[simp] theorem performs_ret (a : α) : (.ret a : Program Op Res α).Performs P Q ↔ Q a := Iff.rfl

@[simp] theorem performs_op (o : Op) (k : Res o → Program Op Res α) :
    (Program.op o k).Performs P Q ↔ P o ∧ ∀ r, (k r).Performs P Q := Iff.rfl

/-- The sequencing rule: the second part is given only what the first returns. -/
theorem Performs.bind {p : Program Op Res α} {f : α → Program Op Res β}
    (first : p.Performs P Q) (rest : ∀ a, Q a → (f a).Performs P S) :
    (p >>= f).Performs P S := by
  induction p with
  | ret a => exact rest a first
  | op o k ih => exact ⟨first.1, fun r => ih r (first.2 r)⟩

theorem Performs.imp {p : Program Op Res α} (performs : p.Performs P Q)
    (implies : ∀ o, P o → P' o) : p.Performs P' Q := by
  induction p with
  | ret a => exact performs
  | op o k ih => exact ⟨implies o performs.1, fun r => ih r (performs.2 r)⟩

end Performs

/-- Every operation is in `P` with the number of operations before it, `n` of them
before the program begins. -/
def PerformsFrom (P : Nat → Op → Prop) : Nat → Program Op Res α → Prop
  | _, .ret _ => True
  | n, .op o k => P n o ∧ ∀ r, (k r).PerformsFrom P (n + 1)

section PerformsFrom

variable {P : Nat → Op → Prop} {n : Nat}

@[simp] theorem performsFrom_ret (a : α) : (.ret a : Program Op Res α).PerformsFrom P n := trivial

@[simp] theorem performsFrom_op (o : Op) (k : Res o → Program Op Res α) :
    (Program.op o k).PerformsFrom P n ↔ P n o ∧ ∀ r, (k r).PerformsFrom P (n + 1) := Iff.rfl

/-- Where the number does not matter. -/
theorem Performs.from {P' : Op → Prop} {Q : α → Prop} {p : Program Op Res α}
    (performs : p.Performs P' Q) (implies : ∀ o, P' o → ∀ n, P n o) (n : Nat) :
    p.PerformsFrom P n := by
  induction p generalizing n with
  | ret a => trivial
  | op o k ih => exact ⟨implies o performs.1 n, fun r => ih r (performs.2 r) (n + 1)⟩

end PerformsFrom

/-! ### How much a program does -/

/-- No path through the program costs more than `n`, whatever the answers. -/
def Within (cost : Op → Nat) : Program Op Res α → Nat → Prop
  | .ret _, _ => True
  | .op o k, n => cost o ≤ n ∧ ∀ r, (k r).Within cost (n - cost o)

section Within

variable {cost : Op → Nat} {n m : Nat}

@[simp] theorem within_ret (a : α) : (.ret a : Program Op Res α).Within cost n := trivial

@[simp] theorem within_op (o : Op) (k : Res o → Program Op Res α) :
    (Program.op o k).Within cost n ↔ cost o ≤ n ∧ ∀ r, (k r).Within cost (n - cost o) := Iff.rfl

theorem Within.mono {p : Program Op Res α} (within : p.Within cost n) (le : n ≤ m) :
    p.Within cost m := by
  induction p generalizing n m with
  | ret a => trivial
  | op o k ih => exact ⟨Nat.le_trans within.1 le, fun r => ih r (within.2 r) (Nat.sub_le_sub_right le _)⟩

/-- The sequencing rule: the costs of the parts add up. -/
theorem Within.bind {p : Program Op Res α} {f : α → Program Op Res β}
    (first : p.Within cost n) (rest : ∀ a, (f a).Within cost m) :
    (p >>= f).Within cost (n + m) := by
  induction p generalizing n with
  | ret a => exact (rest a).mono (Nat.le_add_left m n)
  | op o k ih =>
    refine ⟨Nat.le_trans first.1 (Nat.le_add_right n m), fun r => ?_⟩
    rw [Nat.sub_add_comm first.1]
    exact ih r (first.2 r)

end Within

/-! ### What a program says -/

/-- What the program says, `emit` being what an operation says with its answer, is
in `L` with the value it returns, whatever the answers. -/
def Tells {γ : Type} (emit : (o : Op) → Res o → List γ) :
    Program Op Res α → (List γ → α → Prop) → Prop
  | .ret a, L => L [] a
  | .op o k, L => ∀ r, (k r).Tells emit fun rest => L (emit o r ++ rest)

section Tells

variable {γ : Type} {emit : (o : Op) → Res o → List γ} {L L' : List γ → α → Prop}

@[simp] theorem tells_ret (a : α) : (.ret a : Program Op Res α).Tells emit L ↔ L [] a := Iff.rfl

@[simp] theorem tells_op (o : Op) (k : Res o → Program Op Res α) :
    (Program.op o k).Tells emit L ↔
      ∀ r, (k r).Tells emit fun rest => L (emit o r ++ rest) := Iff.rfl

theorem Tells.imp {p : Program Op Res α} (told : p.Tells emit L)
    (implies : ∀ out a, L out a → L' out a) : p.Tells emit L' := by
  induction p generalizing L L' with
  | ret a => exact implies [] a told
  | op o k ih => exact fun r => ih r (told r) fun out => implies (emit o r ++ out)

/-- The sequencing rule: the second part speaks behind the first. -/
theorem Tells.bind {p : Program Op Res α} {f : α → Program Op Res β} {L : List γ → β → Prop}
    (told : p.Tells emit fun out a => (f a).Tells emit fun rest => L (out ++ rest)) :
    (p >>= f).Tells emit L := by
  induction p generalizing L with
  | ret a => exact told
  | op o k ih =>
    intro r
    apply ih r
    simpa only [List.append_assoc] using told r

/-- Some path is taken, so `L` is met. -/
theorem Tells.meets {p : Program Op Res α} (told : p.Tells emit L)
    (h : (o : Op) → σ → Res o × σ) (s : σ) : ∃ out a, L out a := by
  induction p generalizing L s with
  | ret a => exact ⟨[], a, told⟩
  | op o k ih =>
    obtain ⟨out, a, met⟩ := ih (h o s).1 (told (h o s).1) (h o s).2
    exact ⟨emit o (h o s).1 ++ out, a, met⟩

end Tells

/-! ### Programs among more operations -/

section Relabel

variable {Op' : Type} {Res' : Op' → Type} (e : Op → Op') (back : ∀ o, Res' (e o) → Res o)

/-- The same program where its operations are some of more. -/
def relabel : Program Op Res α → Program Op' Res' α
  | .ret a => .ret a
  | .op o k => .op (e o) fun r => (k (back o r)).relabel

@[simp] theorem relabel_ret (a : α) :
    (.ret a : Program Op Res α).relabel e back = (.ret a : Program Op' Res' α) := rfl

@[simp] theorem relabel_op (o : Op) (k : Res o → Program Op Res α) :
    (Program.op o k).relabel e back = .op (e o) fun r => (k (back o r)).relabel e back := rfl

theorem relabel_tells {γ : Type} {emit : (o : Op) → Res o → List γ}
    {emit' : (o : Op') → Res' o → List γ} (agree : ∀ o r, emit' (e o) r = emit o (back o r))
    {p : Program Op Res α} {L : List γ → α → Prop} (told : p.Tells emit L) :
    (p.relabel e back).Tells emit' L := by
  induction p generalizing L with
  | ret a => exact told
  | op o k ih =>
    intro r
    rw [agree]
    exact ih (back o r) (told (back o r))

theorem relabel_performs {P : Op' → Prop} {Q : α → Prop} {p : Program Op Res α}
    (performs : p.Performs (fun o => P (e o)) Q) : (p.relabel e back).Performs P Q := by
  induction p with
  | ret a => exact performs
  | op o k ih => exact ⟨performs.1, fun r => ih (back o r) (performs.2 (back o r))⟩

end Relabel

/-! ### The operations an observer sees -/

/-- The program without its silent operations, each replaced by its known answer. -/
def erase (silent : (o : Op) → Option (Res o)) : Program Op Res α → Program Op Res α
  | .ret a => .ret a
  | .op o k => match silent o with
    | some r => (k r).erase silent
    | none => .op o fun r => (k r).erase silent

section Erase

variable {silent : (o : Op) → Option (Res o)}

@[simp] theorem erase_ret (a : α) : erase silent (.ret a : Program Op Res α) = .ret a := rfl

theorem erase_silent {o : Op} {r : Res o} (quiet : silent o = some r)
    (k : Res o → Program Op Res α) : erase silent (.op o k) = erase silent (k r) := by
  simp only [erase, quiet]

theorem erase_visible {o : Op} (visible : silent o = none) (k : Res o → Program Op Res α) :
    erase silent (.op o k) = .op o fun r => erase silent (k r) := by
  simp only [erase, visible]

@[simp] theorem erase_bind (p : Program Op Res α) (f : α → Program Op Res β) :
    erase silent (p >>= f) = erase silent p >>= fun a => erase silent (f a) := by
  induction p with
  | ret a => rfl
  | op o k ih =>
    cases quiet : silent o with
    | some r => simp only [op_bind, erase_silent quiet, ih]
    | none => simp only [op_bind, erase_visible quiet, ih]

/-- Silent operations do not change what is seen of the final store: running the
erased program on the view gives the view of running the program. -/
theorem exec_erase {ν : Type} {h : (o : Op) → σ → Res o × σ} {g : (o : Op) → ν → Res o × ν}
    (view : σ → ν)
    (quiet : ∀ o r s, silent o = some r → (h o s).1 = r ∧ view (h o s).2 = view s)
    (seen : ∀ o s, silent o = none → g o (view s) = ((h o s).1, view (h o s).2))
    (p : Program Op Res α) (s : σ) :
    ((p.exec h s).1, view (p.exec h s).2) = (erase silent p).exec g (view s) := by
  induction p generalizing s with
  | ret a => rfl
  | op o k ih =>
    cases known : silent o with
    | some r =>
      rw [erase_silent known, exec_op, ih]
      rw [(quiet o r s known).1, (quiet o r s known).2]
    | none =>
      rw [erase_visible known, exec_op, exec_op, ih]
      simp only [seen o s known]

/-- Silent operations keep an assertion the visible ones keep. -/
theorem Keeps.of_erase {h : (o : Op) → σ → Res o × σ} {I : σ → Prop} {Q : α → Prop}
    (quiet : ∀ o r s, silent o = some r → I s → (h o s).1 = r ∧ I (h o s).2)
    {p : Program Op Res α} (keeps : (erase silent p).Keeps h I Q) : p.Keeps h I Q := by
  induction p with
  | ret a => exact keeps
  | op o k ih =>
    intro s kept
    cases known : silent o with
    | some r =>
      obtain ⟨answer, after⟩ := quiet o r s known kept
      rw [erase_silent known] at keeps
      rw [answer]
      exact ⟨after, ih r keeps⟩
    | none =>
      rw [erase_visible known] at keeps
      obtain ⟨after, rest⟩ := keeps s kept
      exact ⟨after, ih _ rest⟩

end Erase

/-! ### The order of operations -/

/-- No operation in `bad` comes before the first one in `stop`. -/
def Behind (stop bad : Op → Prop) : Program Op Res α → Prop
  | .ret _ => True
  | .op o k => stop o ∨ ¬ bad o ∧ ∀ r, (k r).Behind stop bad

/-- Once an operation in `mark` is done, none in `bad` comes before one in `stop`. -/
def BehindAfter (mark stop bad : Op → Prop) : Program Op Res α → Prop
  | .ret _ => True
  | .op o k => ∀ r, (mark o → (k r).Behind stop bad) ∧ (k r).BehindAfter mark stop bad

section Order

variable {mark stop bad : Op → Prop}

@[simp] theorem behind_ret (a : α) : (.ret a : Program Op Res α).Behind stop bad := trivial

@[simp] theorem behind_op (o : Op) (k : Res o → Program Op Res α) :
    (Program.op o k).Behind stop bad ↔ stop o ∨ ¬ bad o ∧ ∀ r, (k r).Behind stop bad := Iff.rfl

@[simp] theorem behindAfter_ret (a : α) :
    (.ret a : Program Op Res α).BehindAfter mark stop bad := trivial

@[simp] theorem behindAfter_op (o : Op) (k : Res o → Program Op Res α) :
    (Program.op o k).BehindAfter mark stop bad ↔
      ∀ r, (mark o → (k r).Behind stop bad) ∧ (k r).BehindAfter mark stop bad := Iff.rfl

theorem Behind.bind {p : Program Op Res α} {f : α → Program Op Res β}
    (first : p.Behind stop bad) (rest : ∀ a, (f a).Behind stop bad) :
    (p >>= f).Behind stop bad := by
  induction p with
  | ret a => exact rest a
  | op o k ih =>
    rcases first with stops | ⟨good, later⟩
    · exact Or.inl stops
    · exact Or.inr ⟨good, fun r => ih r (later r)⟩

/-- The sequencing rule: `mark` may be met in the first part, so the second is
behind `stop` as well. -/
theorem BehindAfter.bind {p : Program Op Res α} {f : α → Program Op Res β}
    (first : p.BehindAfter mark stop bad) (behind : ∀ a, (f a).Behind stop bad)
    (rest : ∀ a, (f a).BehindAfter mark stop bad) : (p >>= f).BehindAfter mark stop bad := by
  induction p with
  | ret a => exact rest a
  | op o k ih =>
    intro r
    obtain ⟨marked, later⟩ := first r
    exact ⟨fun here => (marked here).bind behind, ih r later⟩

end Order

end Program

/-! ### Interleaving -/

/-- Tasks that share a store, each with what is left of its program. -/
structure Pool (ι : Type) (Op : Type) (Res : Op → Type) (σ : Type) where
  store : σ
  prog : ι → Program Op Res Unit

namespace Pool

variable {ι : Type} [DecidableEq ι] {Op : Type} {Res : Op → Type} {σ : Type}

def step (h : (o : Op) → σ → Res o × σ) (s : Pool ι Op Res σ) (t : ι) : Option (Pool ι Op Res σ) :=
  match s.prog t with
  | .ret _ => none
  | .op o k => some ⟨(h o s.store).2, Function.update s.prog t (k (h o s.store).1)⟩

/-- Task `t`, which has finished, takes up a new program. -/
def start (s : Pool ι Op Res σ) (t : ι) (p : Program Op Res Unit) : Option (Pool ι Op Res σ) :=
  match s.prog t with
  | .ret _ => some ⟨s.store, Function.update s.prog t p⟩
  | .op _ _ => none

theorem step_some {h : (o : Op) → σ → Res o × σ} {s s' : Pool ι Op Res σ} {t : ι} :
    s.step h t = some s' ↔ ∃ o k, s.prog t = .op o k ∧
      s' = ⟨(h o s.store).2, Function.update s.prog t (k (h o s.store).1)⟩ := by
  unfold step
  cases now : s.prog t with
  | ret a => simp
  | op o k =>
    constructor
    · intro h
      cases h
      exact ⟨o, k, rfl, rfl⟩
    · rintro ⟨o', k', same, rfl⟩
      cases same
      rfl

theorem start_some {s s' : Pool ι Op Res σ} {t : ι} {p : Program Op Res Unit} :
    s.start t p = some s' ↔ s.prog t = .ret () ∧ s' = ⟨s.store, Function.update s.prog t p⟩ := by
  unfold start
  cases now : s.prog t with
  | ret a => simp [eq_comm]
  | op o k => simp

/-- All tasks keep `I`, and it holds now. -/
def Keeps (h : (o : Op) → σ → Res o × σ) (I : σ → Prop) (s : Pool ι Op Res σ) : Prop :=
  I s.store ∧ ∀ t, (s.prog t).Keeps h I fun _ => True

variable {h : (o : Op) → σ → Res o × σ} {I : σ → Prop}

/-- Interference between tasks that all keep `I` cannot break it. -/
theorem Keeps.step {s s' : Pool ι Op Res σ} (keeps : s.Keeps h I) {t : ι}
    (stepped : s.step h t = some s') : s'.Keeps h I := by
  obtain ⟨o, k, now, rfl⟩ := step_some.mp stepped
  have mine := keeps.2 t
  rw [now] at mine
  obtain ⟨after, rest⟩ := mine s.store keeps.1
  refine ⟨after, ?_⟩
  rw [Function.forall_update_iff s.prog fun _ p => p.Keeps h I fun _ => True]
  exact ⟨rest, fun u _ => keeps.2 u⟩

theorem Keeps.start {s s' : Pool ι Op Res σ} (keeps : s.Keeps h I) {t : ι}
    {p : Program Op Res Unit} (fresh : p.Keeps h I fun _ => True)
    (started : s.start t p = some s') : s'.Keeps h I := by
  obtain ⟨-, rfl⟩ := start_some.mp started
  refine ⟨keeps.1, ?_⟩
  rw [Function.forall_update_iff s.prog fun _ p => p.Keeps h I fun _ => True]
  exact ⟨fresh, fun u _ => keeps.2 u⟩

theorem performs_step {s s' : Pool ι Op Res σ} {t u : ι} (stepped : s.step h t = some s')
    {P : Op → Prop} {Q : Unit → Prop} (performs : (s.prog u).Performs P Q) :
    (s'.prog u).Performs P Q := by
  obtain ⟨o, k, now, rfl⟩ := step_some.mp stepped
  by_cases same : u = t
  · subst same
    rw [now] at performs
    simpa only [Function.update_self] using performs.2 (h o s.store).1
  · simpa only [Function.update_of_ne same] using performs

/-- Only task `t` has anything left to do, and the store will be `w` when it has
done it. -/
structure Leads (h : (o : Op) → σ → Res o × σ) (s : Pool ι Op Res σ) (t : ι) (w : σ) : Prop where
  others : ∀ u, u ≠ t → s.prog u = .ret ()
  exec : ((s.prog t).exec h s.store).2 = w

theorem Leads.step {s s' : Pool ι Op Res σ} {t u : ι} {w : σ} (leads : s.Leads h t w)
    (stepped : s.step h u = some s') : s'.Leads h t w := by
  obtain ⟨o, k, now, rfl⟩ := step_some.mp stepped
  have mine : u = t := by
    by_contra other
    rw [leads.others u other] at now
    cases now
  subst mine
  refine ⟨fun v other => (Function.update_of_ne other ..).trans (leads.others v other), ?_⟩
  rw [← leads.exec, now]
  simp only [Function.update_self]
  rfl

omit [DecidableEq ι] in
theorem Leads.store {s : Pool ι Op Res σ} {t : ι} {w : σ} (leads : s.Leads h t w)
    (done : s.prog t = .ret ()) : s.store = w := by
  rw [← leads.exec, done]
  rfl

section Order

variable {mark stop bad : Op → Prop}

theorem behindAfter_step {s s' : Pool ι Op Res σ} {t : ι} (stepped : s.step h t = some s')
    (ordered : ∀ u, (s.prog u).BehindAfter mark stop bad) :
    ∀ u, (s'.prog u).BehindAfter mark stop bad := by
  obtain ⟨o, k, now, rfl⟩ := step_some.mp stepped
  have mine := ordered t
  rw [now] at mine
  rw [Function.forall_update_iff s.prog fun _ p => p.BehindAfter mark stop bad]
  exact ⟨(mine (h o s.store).1).2, fun u _ => ordered u⟩

theorem behindAfter_start {s s' : Pool ι Op Res σ} {t : ι} {p : Program Op Res Unit}
    (started : s.start t p = some s') (fresh : p.BehindAfter mark stop bad)
    (ordered : ∀ u, (s.prog u).BehindAfter mark stop bad) :
    ∀ u, (s'.prog u).BehindAfter mark stop bad := by
  obtain ⟨-, rfl⟩ := start_some.mp started
  rw [Function.forall_update_iff s.prog fun _ p => p.BehindAfter mark stop bad]
  exact ⟨fresh, fun u _ => ordered u⟩

end Order

end Pool
