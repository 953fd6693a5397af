import Mathlib.Algebra.Order.Group.Defs
import Mathlib.Algebra.Order.Group.Unbundled.Basic
import Mathlib.Data.List.Basic
import Mathlib.Data.List.Induction

/-!
# Sliding windows

A request is admitted if fewer than `limit` of those admitted earlier are younger than the
window. The log of what was admitted says it all: no span of times that are younger than the
window to each other holds more than `limit` of them, whatever was turned away in between.

## Implementation notes

The age of a time is what a clock's subtraction makes of it. All that is asked of it is
that it respects the order of times, so it may be rounded.
-/

namespace LocalGraphRag.Systems

/-- Times whose subtraction respects their order. -/
class MonotoneSub (τ : Type) [LE τ] [Sub τ] : Prop where
  sub_le_sub : ∀ {a b c d : τ}, a ≤ b → c ≤ d → a - d ≤ b - c

instance {τ : Type} [AddCommGroup τ] [PartialOrder τ] [IsOrderedAddMonoid τ] : MonotoneSub τ :=
  ⟨fun hab hcd => sub_le_sub hab hcd⟩

variable {τ : Type} [LinearOrder τ] [Sub τ]
variable (window : τ) (limit : ℕ)

/-- The logged times that are younger than the window. -/
def recent (now : τ) (log : List τ) : List τ := log.filter fun t => now - t < window

/-- There is room for one more in the window that ends now. -/
def Admits (log : List τ) (now : τ) : Prop := (recent window now log).length < limit

instance (log : List τ) (now : τ) : Decidable (Admits window limit log now) :=
  inferInstanceAs (Decidable (_ < _))

/-- The log after one more request. -/
def accept (log : List τ) (now : τ) : List τ :=
  if Admits window limit log now then log ++ [now] else log

/-- The requests that are admitted, of those at some times. -/
def admitted (times : List τ) : List τ := times.foldl (accept window limit) []

section Log
variable {window limit} {times log : List τ} {now : τ}

theorem admitted_concat (times : List τ) (now : τ) : admitted window limit (times ++ [now]) =
    accept window limit (admitted window limit times) now := by
  rw [admitted, List.foldl_append]
  rfl

theorem admitted_sublist (times : List τ) : (admitted window limit times).Sublist times := by
  induction times using List.reverseRecOn with
  | nil => exact List.Sublist.refl []
  | append_singleton times now ih =>
      rw [admitted_concat, accept]
      split_ifs
      · exact ih.append_right [now]
      · exact ih.trans (List.sublist_append_left times [now])

/-- What was turned away has left no trace. -/
theorem admitted_admitted (times : List τ) :
    admitted window limit (admitted window limit times) = admitted window limit times := by
  induction times using List.reverseRecOn with
  | nil => rfl
  | append_singleton times now ih =>
      rw [admitted_concat, accept]
      split_ifs with hroom
      · rw [admitted_concat, ih, accept, if_pos hroom]
      · exact ih

/-- What was not recent is not so later. -/
theorem recent_recent [MonotoneSub τ] {later : τ} (h : now ≤ later) (log : List τ) :
    recent window later (recent window now log) = recent window later log := by
  rw [recent, recent, List.filter_filter, recent]
  apply List.filter_congr
  intro t _
  by_cases hlater : later - t < window
  · simp [hlater, (MonotoneSub.sub_le_sub h le_rfl).trans_lt hlater]
  · simp [hlater]

/-- Of times that are younger than the window to each other at most `limit` are admitted. -/
theorem length_filter_admitted_le (hsorted : times.Pairwise (· ≤ ·)) (I : τ → Prop)
    [DecidablePred I] (hI : ∀ s t, I s → I t → s ≤ t → t - s < window) :
    ((admitted window limit times).filter fun t => I t).length ≤ limit := by
  induction times using List.reverseRecOn with
  | nil => exact Nat.zero_le limit
  | append_singleton times now ih =>
      obtain ⟨hbefore, -, hlast⟩ := List.pairwise_append.mp hsorted
      rw [admitted_concat, accept]
      split_ifs with hroom
      · by_cases hnow : I now
        · have hrecent : (admitted window limit times).filter (fun t => I t) =
              (recent window now (admitted window limit times)).filter fun t => I t := by
            rw [recent, List.filter_filter]
            apply List.filter_congr
            intro s hs
            have hle := hlast s ((admitted_sublist times).subset hs) now List.mem_cons_self
            by_cases hin : I s
            · simp [hin, hI s now hin hnow hle]
            · simp [hin]
          calc ((admitted window limit times ++ [now]).filter fun t => I t).length
              = ((admitted window limit times).filter fun t => I t).length + 1 := by
                simp [List.filter_append, hnow]
            _ ≤ (recent window now (admitted window limit times)).length + 1 := by
                rw [hrecent]
                exact Nat.succ_le_succ (List.length_filter_le _ _)
            _ ≤ limit := hroom
        · rw [List.filter_append, List.filter_cons_of_neg (by simpa using hnow), List.filter_nil,
            List.append_nil]
          exact ih hbefore
      · exact ih hbefore

/-- The times of a closed interval that is shorter than the window. -/
theorem length_filter_interval_le [MonotoneSub τ] (hsorted : times.Pairwise (· ≤ ·)) {a b : τ}
    (h : b - a < window) :
    ((admitted window limit times).filter fun t => a ≤ t ∧ t ≤ b).length ≤ limit := by
  apply length_filter_admitted_le hsorted
  intro s t hs ht _
  exact (MonotoneSub.sub_le_sub ht.2 hs.1).trans_lt h

end Log

end LocalGraphRag.Systems
