import Mathlib.Logic.Basic
import Mathlib.Data.List.Basic

/-!
# Programs over fallible calls

A program makes calls to the outside world one at a time and reads only their
outcomes, so it can be cut after any call. What a call does is left to a
machine: a step function that also reads a choice, by which the environment
decides failures and replies.

## Implementation notes

A script is the list of choices the environment makes. A program whose script
runs out has crashed: the state so far stays, the rest of the program is lost.
Every prefix of a script is a script, so a statement about the state after an
arbitrary script is a statement about every intermediate state.
-/

namespace LocalGraphRag.Effects

/-- A program stops with a value or an exception, or makes one call and
continues with that call's outcome. -/
inductive Prog (Op : Type) (Ret : Op → Type) (ε α : Type) : Type
  | ret (a : α)
  | fail (e : ε)
  | call (o : Op) (k : Except ε (Ret o) → Prog Op Ret ε α)

namespace Prog

variable {Op : Type} {Ret : Op → Type} {ε α β : Type}

/-- Sequencing: an exception of the first program skips the second. -/
def bind : Prog Op Ret ε α → (α → Prog Op Ret ε β) → Prog Op Ret ε β
  | ret a, f => f a
  | fail e, _ => fail e
  | call o k, f => call o fun r => (k r).bind f

/-- `try m except e: h e`. -/
def orElse : Prog Op Ret ε α → (ε → Prog Op Ret ε α) → Prog Op Ret ε α
  | ret a, _ => ret a
  | fail e, h => h e
  | call o k, h => call o fun r => (k r).orElse h

instance : Monad (Prog Op Ret ε) where
  pure := ret
  bind := bind

/-- One call whose exception, if any, propagates. -/
def perform (o : Op) : Prog Op Ret ε (Ret o) :=
  call o fun r => match r with
    | .ok a => ret a
    | .error e => fail e

/-- Lift a pure computation that may raise. -/
def ofExcept : Except ε α → Prog Op Ret ε α
  | .ok a => ret a
  | .error e => fail e

@[simp] theorem pure_eq (a : α) : (pure a : Prog Op Ret ε α) = ret a := rfl

@[simp] theorem bind_eq (m : Prog Op Ret ε α) (f : α → Prog Op Ret ε β) :
    m >>= f = m.bind f := rfl

@[simp] theorem ret_bind (a : α) (f : α → Prog Op Ret ε β) : (ret a).bind f = f a := rfl

@[simp] theorem fail_bind (e : ε) (f : α → Prog Op Ret ε β) :
    (fail e : Prog Op Ret ε α).bind f = fail e := rfl

end Prog

section Machine
variable {Op : Type} {Ret : Op → Type} {ε α β σ χ : Type}
variable (step : σ → (o : Op) → χ → Except ε (Ret o) × σ)

/-- Run a program along a script. No result means that the script ran out. -/
def run : Prog Op Ret ε α → List χ → σ → Option (Except ε α) × σ
  | .ret a, _, w => (some (.ok a), w)
  | .fail e, _, w => (some (.error e), w)
  | .call _ _, [], w => (none, w)
  | .call o k, c :: cs, w => run (k (step w o c).1) cs (step w o c).2

/-- One executed call: the state it started in, the call, and the choice made. -/
structure Transition (σ : Type) (Op : Type) (χ : Type) where
  before : σ
  op : Op
  choice : χ

/-- The state a transition leads to. -/
def Transition.after (t : Transition σ Op χ) : σ := (step t.before t.op t.choice).2

/-- The transitions a program makes along a script, in order. -/
def transitions : Prog Op Ret ε α → List χ → σ → List (Transition σ Op χ)
  | .ret _, _, _ => []
  | .fail _, _, _ => []
  | .call _ _, [], _ => []
  | .call o k, c :: cs, w =>
      ⟨w, o, c⟩ :: transitions (k (step w o c).1) cs (step w o c).2

@[simp] theorem run_ret (a : α) (cs : List χ) (w : σ) :
    run step (Prog.ret a : Prog Op Ret ε α) cs w = (some (.ok a), w) := by
  cases cs <;> rfl

@[simp] theorem run_fail (e : ε) (cs : List χ) (w : σ) :
    run step (Prog.fail e : Prog Op Ret ε α) cs w = (some (.error e), w) := by
  cases cs <;> rfl

@[simp] theorem transitions_ret (a : α) (cs : List χ) (w : σ) :
    transitions step (Prog.ret a : Prog Op Ret ε α) cs w = [] := by
  cases cs <;> rfl

@[simp] theorem transitions_fail (e : ε) (cs : List χ) (w : σ) :
    transitions step (Prog.fail e : Prog Op Ret ε α) cs w = [] := by
  cases cs <;> rfl

/-- A process lifetime is a sequence of program runs, each with its own script:
a run whose script ends early has crashed, and the next one starts afresh. -/
abbrev Lifetime (Op : Type) (Ret : Op → Type) (ε α χ : Type) :=
  List (Prog Op Ret ε α × List χ)

/-- The state after all runs of a lifetime. -/
def Lifetime.final (runs : Lifetime Op Ret ε α χ) (w : σ) : σ :=
  runs.foldl (fun w r => (run step r.1 r.2 w).2) w

/-- All transitions of a lifetime, in order. -/
def Lifetime.transitions : Lifetime Op Ret ε α χ → σ → List (Transition σ Op χ)
  | [], _ => []
  | r :: runs, w =>
      Effects.transitions step r.1 r.2 w ++
        Lifetime.transitions runs (run step r.1 r.2 w).2

@[simp] theorem Lifetime.final_nil (w : σ) :
    Lifetime.final step ([] : Lifetime Op Ret ε α χ) w = w := rfl

@[simp] theorem Lifetime.final_cons (r : Prog Op Ret ε α × List χ)
    (runs : Lifetime Op Ret ε α χ) (w : σ) :
    Lifetime.final step (r :: runs) w =
      Lifetime.final step runs (run step r.1 r.2 w).2 := rfl

/-- Every state a lifetime passes through, the first one included. -/
def Lifetime.states (runs : Lifetime Op Ret ε α χ) (w : σ) : List σ :=
  w :: (runs.transitions step w).map (Transition.after step)

theorem run_eq_of_result {m : Prog Op Ret ε α} {cs : List χ} {w : σ}
    {r : Option (Except ε α)} (h : (run step m cs w).1 = r) :
    run step m cs w = (r, (run step m cs w).2) := by
  rw [← h]

/-- A pure last step only changes the value. -/
theorem run_bind_ret (m : Prog Op Ret ε α) (f : α → β) (cs : List χ) (w : σ) :
    run step (m.bind fun a => .ret (f a)) cs w =
      let (r, w') := run step m cs w
      (r.map fun r => r.map f, w') := by
  induction m generalizing cs w with
  | ret a => simp [Except.map]
  | fail e => simp [Except.map]
  | call o k ih =>
      cases cs with
      | nil => rfl
      | cons c cs => exact ih _ cs _

theorem run_mem_states (m : Prog Op Ret ε α) (cs : List χ) (w : σ) :
    (run step m cs w).2 ∈ w :: (transitions step m cs w).map (Transition.after step) := by
  induction m generalizing cs w with
  | ret a => simp
  | fail e => simp
  | call o k ih =>
      cases cs with
      | nil => exact List.mem_cons_self
      | cons c cs => exact List.mem_cons_of_mem _ (ih _ cs _)

/-- A lifetime passes through its final state. -/
theorem Lifetime.final_mem_states (runs : Lifetime Op Ret ε α χ) (w : σ) :
    runs.final step w ∈ runs.states step w := by
  induction runs generalizing w with
  | nil => exact List.mem_cons_self
  | cons r runs ih =>
      rw [Lifetime.final_cons, Lifetime.states, Lifetime.transitions, List.map_append,
        ← List.cons_append, List.mem_append]
      obtain h | h := List.mem_cons.mp (ih (run step r.1 r.2 w).2)
      · rw [h]
        exact Or.inl (run_mem_states step r.1 r.2 w)
      · exact Or.inr h

/-- Every transition satisfies the guard. The guard sees the state before the
call, the call and the choice, so it restricts the environment only. -/
def Guarded (G : σ → Op → χ → Prop) (ts : List (Transition σ Op χ)) : Prop :=
  ∀ t ∈ ts, G t.before t.op t.choice

@[simp] theorem guarded_nil (G : σ → Op → χ → Prop) :
    Guarded G ([] : List (Transition σ Op χ)) := by simp [Guarded]

@[simp] theorem guarded_cons (G : σ → Op → χ → Prop) (t : Transition σ Op χ)
    (ts : List (Transition σ Op χ)) :
    Guarded G (t :: ts) ↔ G t.before t.op t.choice ∧ Guarded G ts := by
  simp [Guarded]

@[simp] theorem guarded_append (G : σ → Op → χ → Prop)
    (ts ts' : List (Transition σ Op χ)) :
    Guarded G (ts ++ ts') ↔ Guarded G ts ∧ Guarded G ts' := by
  simp [Guarded, or_imp, forall_and]

/-- A guarded sequence is guarded in its first program. -/
theorem guarded_of_bind {G : σ → Op → χ → Prop} {m : Prog Op Ret ε α}
    {f : α → Prog Op Ret ε β} {cs : List χ} {w : σ}
    (h : Guarded G (transitions step (m.bind f) cs w)) :
    Guarded G (transitions step m cs w) := by
  induction m generalizing cs w with
  | ret a => simp
  | fail e => simp
  | call o k ih =>
      cases cs with
      | nil => exact guarded_nil G
      | cons c cs =>
          change Guarded G (_ :: transitions step ((k (step w o c).1).bind f) cs _) at h
          change Guarded G (_ :: transitions step (k (step w o c).1) cs _)
          rw [guarded_cons] at h ⊢
          exact ⟨h.1, ih _ h.2⟩

theorem guarded_true (ts : List (Transition σ Op χ)) :
    Guarded (fun _ _ _ => True) ts := fun _ _ => trivial

/-- Some script lets the program end with `r` and leave `w'`. -/
inductive Ends : Prog Op Ret ε α → σ → Except ε α → σ → Prop
  | ret (a : α) (w : σ) : Ends (.ret a) w (.ok a) w
  | fail (e : ε) (w : σ) : Ends (.fail e) w (.error e) w
  | call {o : Op} {k : Except ε (Ret o) → Prog Op Ret ε α} {w w' : σ} {r : Except ε α} (c : χ)
      (h : Ends (k (step w o c).1) (step w o c).2 r w') : Ends (.call o k) w r w'

variable {step} {w w' w'' : σ}

theorem ends_iff_run {m : Prog Op Ret ε α} {r : Except ε α} :
    Ends step m w r w' ↔ ∃ cs, run step m cs w = (some r, w') := by
  constructor
  · intro h
    induction h with
    | ret a w => exact ⟨[], run_ret step a [] w⟩
    | fail e w => exact ⟨[], run_fail step e [] w⟩
    | call c _ ih =>
        obtain ⟨cs, hcs⟩ := ih
        exact ⟨c :: cs, hcs⟩
  · rintro ⟨cs, hcs⟩
    induction m generalizing cs w with
    | ret a =>
        rw [run_ret] at hcs
        cases hcs
        exact Ends.ret a _
    | fail e =>
        rw [run_fail] at hcs
        cases hcs
        exact Ends.fail e _
    | call o k ih =>
        cases cs with
        | nil => cases hcs
        | cons c cs => exact Ends.call c (ih _ cs hcs)

theorem Ends.bind {m : Prog Op Ret ε α} {f : α → Prog Op Ret ε β} {a : α} {r : Except ε β}
    (hm : Ends step m w (.ok a) w') (hf : Ends step (f a) w' r w'') :
    Ends step (m.bind f) w r w'' := by
  induction m generalizing w with
  | ret b =>
      cases hm
      exact hf
  | fail e => cases hm
  | call o k ih =>
      cases hm with
      | call c h => exact Ends.call c (ih _ h)

/-- An exception of the first program ends the sequence. -/
theorem Ends.bind_error {m : Prog Op Ret ε α} (f : α → Prog Op Ret ε β) {e : ε}
    (hm : Ends step m w (.error e) w') : Ends step (m.bind f) w (.error e) w' := by
  induction m generalizing w with
  | ret b => cases hm
  | fail e =>
      cases hm
      exact Ends.fail e _
  | call o k ih =>
      cases hm with
      | call c h => exact Ends.call c (ih _ h)

theorem Ends.orElse_ok {m : Prog Op Ret ε α} (h : ε → Prog Op Ret ε α) {a : α}
    (hm : Ends step m w (.ok a) w') : Ends step (m.orElse h) w (.ok a) w' := by
  induction m generalizing w with
  | ret b =>
      cases hm
      exact Ends.ret _ _
  | fail e => cases hm
  | call o k ih =>
      cases hm with
      | call c h => exact Ends.call c (ih _ h)

theorem Ends.orElse_error {m : Prog Op Ret ε α} {h : ε → Prog Op Ret ε α} {e : ε}
    {r : Except ε α} (hm : Ends step m w (.error e) w') (hr : Ends step (h e) w' r w'') :
    Ends step (m.orElse h) w r w'' := by
  induction m generalizing w with
  | ret b => cases hm
  | fail e =>
      cases hm
      exact hr
  | call o k ih =>
      cases hm with
      | call c h => exact Ends.call c (ih _ h)

/-- One call under one choice. -/
theorem ends_perform {o : Op} (c : χ) {r : Except ε (Ret o)} (h : step w o c = (r, w')) :
    Ends step (Prog.perform o) w r w' := by
  apply Ends.call c
  rw [h]
  cases r with
  | ok a => exact Ends.ret a w'
  | error e => exact Ends.fail e w'

/-- One call that answers, followed by the rest of a program. -/
theorem ends_perform_bind {o : Op} (c : χ) {f : Ret o → Prog Op Ret ε β} {a : Ret o}
    {r : Except ε β} (h : step w o c = (.ok a, w')) (hf : Ends step (f a) w' r w'') :
    Ends step ((Prog.perform o).bind f) w r w'' :=
  Ends.bind (ends_perform c h) hf

end Machine

section Results
variable {ε α β : Type} {x : Except ε α} {f : α → Except ε β}

/-- A computation with a result goes through both of its parts. -/
theorem except_bind_eq_ok_iff {b : β} :
    x.bind f = .ok b ↔ ∃ a, x = .ok a ∧ f a = .ok b := by
  cases x with
  | error e => simp [Except.bind]
  | ok a => simp [Except.bind]

/-- An exception comes from one of its parts. -/
theorem except_bind_eq_error_iff {e : ε} :
    x.bind f = .error e ↔ x = .error e ∨ ∃ a, x = .ok a ∧ f a = .error e := by
  cases x with
  | error e => simp [Except.bind]
  | ok a => simp [Except.bind]

theorem except_map_eq_ok_iff {g : α → β} {b : β} :
    x.map g = .ok b ↔ ∃ a, x = .ok a ∧ g a = b := by
  cases x with
  | error e => simp [Except.map]
  | ok a => simp [Except.map]

theorem except_map_eq_error_iff {g : α → β} {e : ε} : x.map g = .error e ↔ x = .error e := by
  cases x with
  | error e => simp [Except.map]
  | ok a => simp [Except.map]

end Results

end LocalGraphRag.Effects
