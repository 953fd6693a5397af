import LocalGraphRag.Effects.Recording
import LocalGraphRag.Effects.Safety

/-!
# Which calls a program can make

`CallsOnly P` says that every call of a program, whatever the earlier ones returned, is one
of those in `P`. What each such call keeps is then kept by the program, without a look at
what it does with the results.
-/

namespace LocalGraphRag.Effects

variable {Op : Type} {Ret : Op → Type} {ε α β γ σ χ : Type} {P : Op → Prop}

def CallsOnly (P : Op → Prop) : Prog Op Ret ε α → Prop
  | .ret _ => True
  | .fail _ => True
  | .call o k => P o ∧ ∀ r, CallsOnly P (k r)

section Programs

@[simp] theorem callsOnly_ret (a : α) : CallsOnly P (.ret a : Prog Op Ret ε α) := trivial

@[simp] theorem callsOnly_fail (e : ε) : CallsOnly P (.fail e : Prog Op Ret ε α) := trivial

@[simp] theorem callsOnly_ofExcept (r : Except ε α) :
    CallsOnly P (Prog.ofExcept r : Prog Op Ret ε α) := by
  cases r <;> trivial

theorem callsOnly_perform {o : Op} (ho : P o) :
    CallsOnly P (Prog.perform o : Prog Op Ret ε (Ret o)) := by
  refine ⟨ho, fun r => ?_⟩
  cases r <;> trivial

theorem CallsOnly.mono {P' : Op → Prop} {m : Prog Op Ret ε α} (hm : CallsOnly P m)
    (hP : ∀ o, P o → P' o) : CallsOnly P' m := by
  induction m with
  | ret a => trivial
  | fail e => trivial
  | call o k ih => exact ⟨hP o hm.1, fun r => ih r (hm.2 r)⟩

/-- A computation that may raise, followed by the rest of a program. -/
theorem callsOnly_ofExcept_bind {r : Except ε α} {f : α → Prog Op Ret ε β}
    (hf : ∀ a, r = .ok a → CallsOnly P (f a)) : CallsOnly P ((Prog.ofExcept r).bind f) := by
  cases r with
  | error e => trivial
  | ok a => exact hf a rfl

theorem CallsOnly.bind {m : Prog Op Ret ε α} {f : α → Prog Op Ret ε β} (hm : CallsOnly P m)
    (hf : ∀ a, CallsOnly P (f a)) : CallsOnly P (m.bind f) := by
  induction m with
  | ret a => exact hf a
  | fail e => trivial
  | call o k ih => exact ⟨hm.1, fun r => ih r (hm.2 r)⟩

theorem CallsOnly.orElse {m : Prog Op Ret ε α} {h : ε → Prog Op Ret ε α} (hm : CallsOnly P m)
    (hh : ∀ e, CallsOnly P (h e)) : CallsOnly P (m.orElse h) := by
  induction m with
  | ret a => trivial
  | fail e => exact hh e
  | call o k ih => exact ⟨hm.1, fun r => ih r (hm.2 r)⟩

theorem callsOnly_foldlM {f : γ → β → Prog Op Ret ε γ} (l : List β) (s : γ)
    (hf : ∀ s x, CallsOnly P (f s x)) : CallsOnly P (l.foldlM f s) := by
  induction l generalizing s with
  | nil => trivial
  | cons x l ih =>
      rw [List.foldlM_cons]
      exact (hf s x).bind ih

end Programs

section Kept
variable {step : σ → (o : Op) → χ → Except ε (Ret o) × σ} {I : σ → Prop}

/-- What each of its calls keeps, a program keeps. -/
theorem CallsOnly.safe {m : Prog Op Ret ε α} (hm : CallsOnly P m)
    (hkeeps : ∀ w o c, P o → I w → I (step w o c).2) {w : σ} (hw : I w) :
    Safe step (fun _ _ _ => True) I m (fun _ w' => I w') w := by
  induction m generalizing w with
  | ret a => exact hw
  | fail e => exact hw
  | call o k ih =>
      intro c _
      exact ⟨hkeeps w o c hm.1 hw, ih _ (hm.2 _) (hkeeps w o c hm.1 hw)⟩

end Kept

section Recorded
variable {step : σ → (o : Op) → χ → Except ε (Ret o) × σ}
variable {I : σ × List (Executed Ret ε) → Prop}

/-- What each of its calls keeps, a program keeps; its calls go behind those on record. -/
theorem CallsOnly.establishes {m : Prog Op Ret ε α} (hm : CallsOnly P m)
    (hkeeps : ∀ w o c, P o → I w → I (recording step w o c).2) {w : σ × List (Executed Ret ε)}
    (hw : I w) :
    Establishes (recording step) (fun _ _ _ => True) I m (fun _ w' => w.2 <+: w'.2) w := by
  suffices h : ∀ record, record <+: w.2 → Establishes (recording step) (fun _ _ _ => True) I m
      (fun _ w' => record <+: w'.2) w from h w.2 List.prefix_rfl
  induction m generalizing w with
  | ret a => exact fun record hrecord => establishes_ret hw hrecord
  | fail e => exact fun record _ => ⟨hw, by simp⟩
  | call o k ih =>
      intro record hrecord c _
      refine ⟨hkeeps w o c hm.1 hw, ih _ (hm.2 _) (hkeeps w o c hm.1 hw) record ?_⟩
      exact hrecord.trans (List.prefix_append ..)

end Recorded

end LocalGraphRag.Effects
