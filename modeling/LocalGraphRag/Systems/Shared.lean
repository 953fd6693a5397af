import Mathlib.Algebra.BigOperators.Group.List.Basic
import Mathlib.Algebra.GroupWithZero.Nat

/-!
# Parties that share a resource

Parties take units of a resource from a common stock and give them back, each by steps of
its own. What the parties hold and what is left add up to the same number as long as the
steps of a single party keep its account.
-/

namespace LocalGraphRag.Systems

/-- A stock and the parties that draw on it, in the order of their arrival. -/
structure Shared (ρ : Type) where
  free : Nat
  parties : List ρ
  deriving DecidableEq

namespace Shared

variable {ρ α : Type}

/-- A step of one party, which sees and changes the stock. -/
def act (step : ρ → α → Nat → Option (ρ × Nat)) (σ : Shared ρ) (i : Nat) (a : α) :
    Option (Shared ρ) := do
  let r ← σ.parties[i]?
  let next ← step r a σ.free
  return ⟨next.2, σ.parties.set i next.1⟩

def arrive (σ : Shared ρ) (r : ρ) : Shared ρ := { σ with parties := σ.parties ++ [r] }

/-- The stock and what the parties hold. -/
def total (held : ρ → Nat) (σ : Shared ρ) : Nat := σ.free + (σ.parties.map held).sum

section Accounts
variable {step : ρ → α → Nat → Option (ρ × Nat)} {held : ρ → Nat} {σ σ' : Shared ρ}

theorem act_eq_some_iff {i : Nat} {a : α} : σ.act step i a = some σ' ↔
    ∃ r, σ.parties[i]? = some r ∧ ∃ next, step r a σ.free = some next ∧
      σ' = ⟨next.2, σ.parties.set i next.1⟩ := by
  unfold act
  constructor
  · intro h
    obtain ⟨r, hr, h⟩ := Option.bind_eq_some_iff.mp h
    obtain ⟨next, hnext, h⟩ := Option.bind_eq_some_iff.mp h
    exact ⟨r, hr, next, hnext, (Option.some.inj h).symm⟩
  · intro h
    obtain ⟨r, hr, next, hnext, rfl⟩ := h
    rw [hr, Option.bind_eq_bind, Option.bind_some, hnext]
    rfl

/-- A party that changes what it holds changes the sum by as much. -/
theorem sum_map_set (held : ρ → Nat) {l : List ρ} {i : Nat} {r : ρ} (r' : ρ) (h : l[i]? = some r) :
    ((l.set i r').map held).sum + held r = (l.map held).sum + held r' := by
  induction l generalizing i with
  | nil => cases h
  | cons x l ih =>
      cases i with
      | zero =>
          cases h
          simp only [List.set_cons_zero, List.map_cons, List.sum_cons]
          omega
      | succ i =>
          have hrest := ih h
          simp only [List.set_cons_succ, List.map_cons, List.sum_cons]
          omega

theorem total_arrive {r : ρ} (hr : held r = 0) : (σ.arrive r).total held = σ.total held := by
  simp [total, arrive, hr]

/-- What one party takes or gives back is what the stock loses or gains. -/
theorem total_act {i : Nat} {a : α}
    (hstep : ∀ r next, step r a σ.free = some next → next.2 + held next.1 = σ.free + held r)
    (h : σ.act step i a = some σ') : σ'.total held = σ.total held := by
  obtain ⟨r, hr, next, hnext, rfl⟩ := act_eq_some_iff.mp h
  have hone := hstep r next hnext
  have hsum := sum_map_set held next.1 hr
  simp only [total]
  omega

/-- What a party holds is a part of the total. -/
theorem free_add_held_le {i : Nat} {r : ρ} (h : σ.parties[i]? = some r) :
    σ.free + held r ≤ σ.total held := by
  have hle : ∀ l : List ρ, r ∈ l → held r ≤ (l.map held).sum := by
    intro l hr
    induction l with
    | nil => exact absurd hr List.not_mem_nil
    | cons q l ih =>
        rw [List.map_cons, List.sum_cons]
        obtain rfl | hr := List.mem_cons.mp hr
        · exact Nat.le_add_right _ _
        · exact Nat.le_trans (ih hr) (Nat.le_add_left _ _)
  exact Nat.add_le_add_left (hle _ (List.mem_of_getElem? h)) _

/-- The same for a step that keeps its account in the stock that it meets. -/
theorem total_act_of_getElem? {i : Nat} {a : α}
    (hstep : ∀ r next, σ.parties[i]? = some r → step r a σ.free = some next →
      next.2 + held next.1 = σ.free + held r)
    (h : σ.act step i a = some σ') : σ'.total held = σ.total held := by
  obtain ⟨r, hr, next, hnext, rfl⟩ := act_eq_some_iff.mp h
  have hone := hstep r next hr hnext
  have hsum := sum_map_set held next.1 hr
  simp only [total]
  omega

/-- What a step preserves of the one party that takes it holds of all of them. -/
theorem forall_act {P : ρ → Prop} {i : Nat} {a : α} (hσ : ∀ r ∈ σ.parties, P r)
    (hstep : ∀ r next, σ.parties[i]? = some r → P r → step r a σ.free = some next → P next.1)
    (h : σ.act step i a = some σ') : ∀ r ∈ σ'.parties, P r := by
  obtain ⟨r, hr, next, hnext, rfl⟩ := act_eq_some_iff.mp h
  intro q hq
  obtain hq | rfl := List.mem_or_eq_of_mem_set hq
  · exact hσ q hq
  · exact hstep r next hr (hσ r (List.mem_of_getElem? hr)) hnext

theorem forall_arrive {P : ρ → Prop} {r : ρ} (hσ : ∀ q ∈ σ.parties, P q) (hr : P r) :
    ∀ q ∈ (σ.arrive r).parties, P q := by
  intro q hq
  obtain hq | hq := List.mem_append.mp hq
  · exact hσ q hq
  · rwa [List.mem_singleton.mp hq]

end Accounts

end Shared

end LocalGraphRag.Systems
