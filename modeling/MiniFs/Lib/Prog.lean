import Mathlib.Logic.Function.Basic
import Mathlib.Logic.Relation

/-!
# Programs over an interface of primitive actions

A program is a finite-branching tree of primitive actions.  The state is changed only by the
actions, so one program has two readings: a run to completion, and a run cut at any action (a
crash).  `Safe` is the proof rule for both.
-/

/-- A program that issues actions and continues with their answers. -/
inductive Prog (Op : Type) (Res : Op → Type) (α : Type) where
  /-- Stop with a value. -/
  | ret (value : α)
  /-- Perform one action and continue with its answer. -/
  | call (op : Op) (next : Res op → Prog Op Res α)

namespace Prog

variable {Op Op' σ μ α β γ : Type} {Res : Op → Type} {Res' : Op' → Type}

/-- Sequential composition. -/
def bind : Prog Op Res α → (α → Prog Op Res β) → Prog Op Res β
  | ret value, rest => rest value
  | call op next, rest => call op fun answer => (next answer).bind rest

instance : Monad (Prog Op Res) where
  pure := ret
  bind := bind

/-- The program of one action. -/
def perform (op : Op) : Prog Op Res (Res op) := call op ret

@[simp] theorem pure_eq (value : α) : (pure value : Prog Op Res α) = ret value := rfl

@[simp] theorem ret_bind (value : α) (rest : α → Prog Op Res β) :
    (ret value >>= rest) = rest value := rfl

@[simp] theorem call_bind (op : Op) (next : Res op → Prog Op Res α) (rest : α → Prog Op Res β) :
    (call op next >>= rest) = call op fun answer => next answer >>= rest := rfl

@[simp] theorem perform_bind (op : Op) (rest : Res op → Prog Op Res β) :
    (perform op >>= rest) = call op rest := rfl

/-- Replace every action by a program over a finer interface, with a private state threaded
through. -/
def refine (sem : ∀ op, μ → Prog Op' Res' (Res op × μ)) :
    Prog Op Res α → μ → Prog Op' Res' (α × μ)
  | ret value, memory => ret (value, memory)
  | call op next, memory => sem op memory >>= fun result => (next result.1).refine sem result.2

@[simp] theorem refine_ret (sem : ∀ op, μ → Prog Op' Res' (Res op × μ)) (value : α) (memory : μ) :
    (ret value : Prog Op Res α).refine sem memory = ret (value, memory) := rfl

@[simp] theorem refine_call (sem : ∀ op, μ → Prog Op' Res' (Res op × μ)) (op : Op)
    (next : Res op → Prog Op Res α) (memory : μ) :
    (call op next).refine sem memory =
      sem op memory >>= fun result => (next result.1).refine sem result.2 := rfl

theorem bind_assoc (program : Prog Op Res α) (middle : α → Prog Op Res β)
    (rest : β → Prog Op Res γ) :
    (program >>= middle) >>= rest = program >>= fun value => middle value >>= rest := by
  induction program with
  | ret value => rfl
  | call op next ih =>
      simp only [call_bind]
      congr 1
      funext answer
      exact ih answer

theorem refine_bind (sem : ∀ op, μ → Prog Op' Res' (Res op × μ)) (program : Prog Op Res α)
    (rest : α → Prog Op Res β) (memory : μ) :
    (program >>= rest).refine sem memory =
      program.refine sem memory >>= fun result => (rest result.1).refine sem result.2 := by
  induction program generalizing memory with
  | ret value => rfl
  | call op next ih =>
      simp only [call_bind, refine_call, bind_assoc, ih]

/-- Run a program with a handler that answers every action. -/
def run (handler : ∀ op, σ → Res op × σ) : Prog Op Res α → σ → α × σ
  | ret value, state => (value, state)
  | call op next, state =>
      (next (handler op state).1).run handler (handler op state).2

@[simp] theorem run_ret (handler : ∀ op, σ → Res op × σ) (value : α) (state : σ) :
    (ret value : Prog Op Res α).run handler state = (value, state) := rfl

@[simp] theorem run_call (handler : ∀ op, σ → Res op × σ) (op : Op)
    (next : Res op → Prog Op Res α) (state : σ) :
    (call op next).run handler state =
      (next (handler op state).1).run handler (handler op state).2 := rfl

theorem run_bind (handler : ∀ op, σ → Res op × σ) (program : Prog Op Res α)
    (rest : α → Prog Op Res β) (state : σ) :
    (program >>= rest).run handler state =
      (rest (program.run handler state).1).run handler (program.run handler state).2 := by
  induction program generalizing state with
  | ret value => rfl
  | call op next ih => exact ih _ _

/-- The actions of a run with a handler are of the given kind. -/
def RunsBy (handler : ∀ op, σ → Res op × σ) (Kind : σ → Op → Prop) : Prog Op Res α → σ → Prop
  | ret _, _ => True
  | call op next, state =>
      Kind state op ∧ (next (handler op state).1).RunsBy handler Kind (handler op state).2

@[simp] theorem runsBy_ret (handler : ∀ op, σ → Res op × σ) (Kind : σ → Op → Prop) (value : α)
    (state : σ) : (ret value : Prog Op Res α).RunsBy handler Kind state := trivial

@[simp] theorem runsBy_call (handler : ∀ op, σ → Res op × σ) (Kind : σ → Op → Prop) (op : Op)
    (next : Res op → Prog Op Res α) (state : σ) :
    (call op next).RunsBy handler Kind state ↔
      Kind state op ∧ (next (handler op state).1).RunsBy handler Kind (handler op state).2 :=
  Iff.rfl

theorem runsBy_bind (handler : ∀ op, σ → Res op × σ) (Kind : σ → Op → Prop)
    (program : Prog Op Res α) (rest : α → Prog Op Res β) (state : σ) :
    (program >>= rest).RunsBy handler Kind state ↔ program.RunsBy handler Kind state ∧
      (rest (program.run handler state).1).RunsBy handler Kind (program.run handler state).2 := by
  induction program generalizing state with
  | ret value => exact (and_iff_right trivial).symm
  | call op next ih => exact (and_congr_right fun _ => ih _ _).trans and_assoc.symm

/-- Run a program in an environment that has decided how each action goes: `decisions k` is about
the `k`-th action from here on. -/
def runWith {δ : Type} (exec : δ → ∀ op, σ → Res op × σ) :
    Prog Op Res α → (Nat → δ) → σ → α × σ
  | ret value, _, state => (value, state)
  | call op next, decisions, state =>
      (next (exec (decisions 0) op state).1).runWith exec (fun k => decisions (k + 1))
        (exec (decisions 0) op state).2

/-! ## Small steps -/

/-- One action, taken by a program in a state. -/
inductive Step (act : σ → (op : Op) → Res op → σ → Prop) :
    Prog Op Res α × σ → Prog Op Res α × σ → Prop
  | call {op : Op} {next : Res op → Prog Op Res α} {before after : σ} {answer : Res op}
      (acted : act before op answer after) :
      Step act (call op next, before) (next answer, after)

/-- A program gets from one configuration to another by finitely many actions. -/
def Reaches (act : σ → (op : Op) → Res op → σ → Prop) :
    Prog Op Res α × σ → Prog Op Res α × σ → Prop :=
  Relation.ReflTransGen (Step act)

section Reaches

variable {act : σ → (op : Op) → Res op → σ → Prop}

theorem Step.bind {program program' : Prog Op Res α} {before after : σ}
    (rest : α → Prog Op Res β) (step : Step act (program, before) (program', after)) :
    Step act (program >>= rest, before) (program' >>= rest, after) := by
  cases step with
  | call acted => exact .call acted

theorem Reaches.bind {program program' : Prog Op Res α} {before after : σ}
    (rest : α → Prog Op Res β) (reach : Reaches act (program, before) (program', after)) :
    Reaches act (program >>= rest, before) (program' >>= rest, after) := by
  exact Relation.ReflTransGen.lift
    (fun config : Prog Op Res α × σ => (config.1 >>= rest, config.2))
    (fun _ _ step => Step.bind rest step) _ _ reach

/-- A deterministic run is an execution if its actions are. -/
theorem RunsBy.reaches {handler : ∀ op, σ → Res op × σ} {Kind : σ → Op → Prop}
    {program : Prog Op Res α} {state : σ} (runs : program.RunsBy handler Kind state)
    (lawful : ∀ state op, Kind state op → act state op (handler op state).1 (handler op state).2) :
    Reaches act (program, state)
      (ret (program.run handler state).1, (program.run handler state).2) := by
  induction program generalizing state with
  | ret value => exact .refl
  | call op next ih => exact .head (.call (lawful state op runs.1)) (ih _ runs.2)

/-- A deterministic run is one of the executions. -/
theorem reaches_run (handler : ∀ op, σ → Res op × σ)
    (lawful : ∀ state op, act state op (handler op state).1 (handler op state).2)
    (program : Prog Op Res α) (state : σ) :
    Reaches act (program, state)
      (ret (program.run handler state).1, (program.run handler state).2) := by
  induction program generalizing state with
  | ret value => exact .refl
  | call op next ih => exact .head (.call (lawful state op)) (ih _ _)

/-- So is a run in an environment that has decided how each action goes. -/
theorem reaches_runWith {δ : Type} (exec : δ → ∀ op, σ → Res op × σ)
    (lawful : ∀ decision state op,
      act state op (exec decision op state).1 (exec decision op state).2)
    (program : Prog Op Res α) (decisions : Nat → δ) (state : σ) :
    Reaches act (program, state)
      (ret (program.runWith exec decisions state).1, (program.runWith exec decisions state).2) := by
  induction program generalizing decisions state with
  | ret value => exact .refl
  | call op next ih => exact .head (.call (lawful _ state op)) (ih _ _ _)

theorem not_step_ret {value : α} {state : σ} {config : Prog Op Res α × σ} :
    ¬ Step act (ret value, state) config := by
  intro step
  cases step

/-- Every execution ends. -/
theorem acc_step (program : Prog Op Res α) (state : σ) :
    Acc (fun after before => Step act before after) (program, state) := by
  induction program generalizing state with
  | ret value => exact .intro _ fun _ step => absurd step not_step_ret
  | call op next ih =>
      refine .intro _ fun config step => ?_
      cases step with
      | call acted => exact ih _ _

end Reaches

/-- Every action the program takes meets the contract `Ok`, and it stops only where `Post` holds. -/
def Safe (act : σ → (op : Op) → Res op → σ → Prop) (Ok : σ → (op : Op) → Res op → σ → Prop)
    (Post : α → σ → Prop) : Prog Op Res α → σ → Prop
  | ret value, state => Post value state
  | call op next, state =>
      ∀ answer after, act state op answer after →
        Ok state op answer after ∧ (next answer).Safe act Ok Post after

section Safe

variable {act : σ → (op : Op) → Res op → σ → Prop} {Ok : σ → (op : Op) → Res op → σ → Prop}

theorem Safe.mono {Post Post' : α → σ → Prop} {program : Prog Op Res α} {state : σ}
    (safe : program.Safe act Ok Post state)
    (weaker : ∀ value state, Post value state → Post' value state) :
    program.Safe act Ok Post' state := by
  induction program generalizing state with
  | ret value => exact weaker _ _ safe
  | call op next ih =>
      intro answer after acted
      exact ⟨(safe answer after acted).1, ih _ (safe answer after acted).2⟩

theorem Safe.bind {Mid : α → σ → Prop} {Post : β → σ → Prop} {program : Prog Op Res α}
    {rest : α → Prog Op Res β} {state : σ} (first : program.Safe act Ok Mid state)
    (second : ∀ value state, Mid value state → (rest value).Safe act Ok Post state) :
    (program >>= rest).Safe act Ok Post state := by
  induction program generalizing state with
  | ret value => exact second _ _ first
  | call op next ih =>
      intro answer after acted
      exact ⟨(first answer after acted).1, ih _ (first answer after acted).2⟩

theorem Safe.step {Post : α → σ → Prop} {config config' : Prog Op Res α × σ}
    (safe : config.1.Safe act Ok Post config.2) (step : Step act config config') :
    config'.1.Safe act Ok Post config'.2 := by
  cases step with
  | call acted => exact (safe _ _ acted).2

theorem Safe.reaches {Post : α → σ → Prop} {config config' : Prog Op Res α × σ}
    (safe : config.1.Safe act Ok Post config.2) (reach : Reaches act config config') :
    config'.1.Safe act Ok Post config'.2 := by
  induction reach with
  | refl => exact safe
  | tail _ step ih => exact ih.step step

/-- A property that contract-abiding actions keep may be added to the contract and to
the outcome. -/
theorem Safe.strengthen {Ok' : σ → (op : Op) → Res op → σ → Prop} {Post : α → σ → Prop}
    {Inv : σ → Prop} {program : Prog Op Res α} {state : σ} (safe : program.Safe act Ok Post state)
    (holds : Inv state)
    (step : ∀ before op answer after, Inv before → Ok before op answer after →
      Inv after ∧ Ok' before op answer after) :
    program.Safe act Ok' (fun value state => Post value state ∧ Inv state) state := by
  induction program generalizing state with
  | ret value => exact ⟨safe, holds⟩
  | call op next ih =>
      intro answer after acted
      obtain ⟨ok, rest⟩ := safe answer after acted
      obtain ⟨kept, ok'⟩ := step _ _ _ _ holds ok
      exact ⟨ok', ih _ rest kept⟩

end Safe

/-- Whatever is answered, the program issues only such actions and stops with such a value. -/
def Issues (Allowed : Op → Prop) (Post : α → Prop) : Prog Op Res α → Prop
  | ret value => Post value
  | call op next => Allowed op ∧ ∀ answer, (next answer).Issues Allowed Post

section Issues

variable {Allowed : Op → Prop}

theorem Issues.mono {Post Post' : α → Prop} {program : Prog Op Res α}
    (issues : program.Issues Allowed Post) (weaker : ∀ value, Post value → Post' value) :
    program.Issues Allowed Post' := by
  induction program with
  | ret value => exact weaker _ issues
  | call op next ih => exact ⟨issues.1, fun answer => ih answer (issues.2 answer)⟩

theorem Issues.allow {Allowed' : Op → Prop} {Post : α → Prop} {program : Prog Op Res α}
    (issues : program.Issues Allowed Post) (wider : ∀ op, Allowed op → Allowed' op) :
    program.Issues Allowed' Post := by
  induction program with
  | ret value => exact issues
  | call op next ih => exact ⟨wider op issues.1, fun answer => ih answer (issues.2 answer)⟩

theorem Issues.bind {Mid : α → Prop} {Post : β → Prop} {program : Prog Op Res α}
    {rest : α → Prog Op Res β} (first : program.Issues Allowed Mid)
    (second : ∀ value, Mid value → (rest value).Issues Allowed Post) :
    (program >>= rest).Issues Allowed Post := by
  induction program with
  | ret value => exact second _ first
  | call op next ih => exact ⟨first.1, fun answer => ih answer (first.2 answer)⟩

/-- A program is safe where every action that it may issue keeps an invariant. -/
theorem Issues.safe {act Ok : σ → (op : Op) → Res op → σ → Prop} {Inv : σ → Prop} {Post : α → Prop}
    {program : Prog Op Res α} {state : σ} (issues : program.Issues Allowed Post) (holds : Inv state)
    (step : ∀ before op answer after, Allowed op → Inv before → act before op answer after →
      Ok before op answer after ∧ Inv after) :
    program.Safe act Ok (fun value state => Post value ∧ Inv state) state := by
  induction program generalizing state with
  | ret value => exact ⟨issues, holds⟩
  | call op next ih =>
      intro answer after acted
      obtain ⟨ok, kept⟩ := step _ _ _ _ issues.1 holds acted
      exact ⟨ok, ih answer (issues.2 answer) kept⟩

/-- So are the actions of its runs. -/
theorem Issues.runsBy {Post : α → Prop} {program : Prog Op Res α}
    (issues : program.Issues Allowed Post) {handler : ∀ op, σ → Res op × σ} {Kind : σ → Op → Prop}
    (allows : ∀ state op, Allowed op → Kind state op) (state : σ) :
    program.RunsBy handler Kind state := by
  induction program generalizing state with
  | ret value => trivial
  | call op next ih => exact ⟨allows state op issues.1, ih _ (issues.2 _) _⟩

end Issues

end Prog
