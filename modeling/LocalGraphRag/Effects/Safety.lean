import LocalGraphRag.Effects.Prog

/-!
# Crash safety of programs

`Safe` is a weakest precondition with a crash condition: the invariant holds
after every call, under every choice the guard admits, and the postcondition
holds if the program stops. Since a crash keeps exactly the state after some
call, an invariant that programs keep safe survives every crash and restart.
-/

namespace LocalGraphRag.Effects

variable {Op : Type} {Ret : Op → Type} {ε α β γ σ χ : Type}

section Safe
variable (step : σ → (o : Op) → χ → Except ε (Ret o) × σ)
variable (G : σ → Op → χ → Prop) (I : σ → Prop)

/-- The program keeps `I` after each call and establishes `Q` if it stops. -/
def Safe : Prog Op Ret ε α → (Except ε α → σ → Prop) → σ → Prop
  | .ret a, Q, w => Q (.ok a) w
  | .fail e, Q, w => Q (.error e) w
  | .call o k, Q, w => ∀ c, G w o c →
      I (step w o c).2 ∧ Safe (k (step w o c).1) Q (step w o c).2

/-- The postcondition of the first program of a sequence: a value goes on to
the second program, an exception leaves the sequence. -/
def thenPost (f : α → Prog Op Ret ε β) (Q : Except ε β → σ → Prop) :
    Except ε α → σ → Prop
  | .ok a, w => Safe step G I (f a) Q w
  | .error e, w => Q (.error e) w

/-- The postcondition of a guarded program: an exception goes on to its handler. -/
def catchPost (h : ε → Prog Op Ret ε α) (Q : Except ε α → σ → Prop) :
    Except ε α → σ → Prop
  | .ok a, w => Q (.ok a) w
  | .error e, w => Safe step G I (h e) Q w

@[simp] theorem thenPost_ok (f : α → Prog Op Ret ε β) (Q : Except ε β → σ → Prop) (a : α)
    (w : σ) : thenPost step G I f Q (.ok a) w ↔ Safe step G I (f a) Q w := Iff.rfl

@[simp] theorem thenPost_error (f : α → Prog Op Ret ε β) (Q : Except ε β → σ → Prop)
    (e : ε) (w : σ) : thenPost step G I f Q (.error e) w ↔ Q (.error e) w := Iff.rfl

@[simp] theorem safe_ret (a : α) (Q : Except ε α → σ → Prop) (w : σ) :
    Safe step G I (.ret a : Prog Op Ret ε α) Q w ↔ Q (.ok a) w := Iff.rfl

@[simp] theorem safe_fail (e : ε) (Q : Except ε α → σ → Prop) (w : σ) :
    Safe step G I (.fail e : Prog Op Ret ε α) Q w ↔ Q (.error e) w := Iff.rfl

@[simp] theorem safe_ofExcept (r : Except ε α) (Q : Except ε α → σ → Prop) (w : σ) :
    Safe step G I (Prog.ofExcept r : Prog Op Ret ε α) Q w ↔ Q r w := by
  cases r <;> rfl

variable {step G I}

theorem safe_mono {m : Prog Op Ret ε α} {Q Q' : Except ε α → σ → Prop} {w : σ}
    (hm : Safe step G I m Q w) (hQ : ∀ r w, Q r w → Q' r w) :
    Safe step G I m Q' w := by
  induction m generalizing w with
  | ret a => exact hQ _ _ hm
  | fail e => exact hQ _ _ hm
  | call o k ih =>
      intro c hc
      obtain ⟨hI, hk⟩ := hm c hc
      exact ⟨hI, ih _ hk⟩

/-- What is kept is more than what is asked for. -/
theorem Safe.weaken {J : σ → Prop} {m : Prog Op Ret ε α} {Q : Except ε α → σ → Prop} {w : σ}
    (hm : Safe step G I m Q w) (hI : ∀ w, I w → J w) : Safe step G J m Q w := by
  induction m generalizing w with
  | ret a => exact hm
  | fail e => exact hm
  | call o k ih =>
      intro c hc
      obtain ⟨hkept, hk⟩ := hm c hc
      exact ⟨hI _ hkept, ih _ hk⟩

/-- What is kept and ensured one by one is so together. -/
theorem Safe.and {J : σ → Prop} {m : Prog Op Ret ε α} {Q Q' : Except ε α → σ → Prop} {w : σ}
    (hm : Safe step G I m Q w) (hm' : Safe step G J m Q' w) :
    Safe step G (fun w => I w ∧ J w) m (fun r w => Q r w ∧ Q' r w) w := by
  induction m generalizing w with
  | ret a => exact ⟨hm, hm'⟩
  | fail e => exact ⟨hm, hm'⟩
  | call o k ih =>
      intro c hc
      obtain ⟨hI, hk⟩ := hm c hc
      obtain ⟨hJ, hk'⟩ := hm' c hc
      exact ⟨⟨hI, hJ⟩, ih _ hk hk'⟩

theorem safe_bind {m : Prog Op Ret ε α} {f : α → Prog Op Ret ε β}
    {Q : Except ε β → σ → Prop} {w : σ}
    (hm : Safe step G I m (thenPost step G I f Q) w) :
    Safe step G I (m.bind f) Q w := by
  induction m generalizing w with
  | ret a => exact hm
  | fail e => exact hm
  | call o k ih =>
      intro c hc
      obtain ⟨hI, hk⟩ := hm c hc
      exact ⟨hI, ih _ hk⟩

theorem safe_orElse {m : Prog Op Ret ε α} {h : ε → Prog Op Ret ε α}
    {Q : Except ε α → σ → Prop} {w : σ}
    (hm : Safe step G I m (catchPost step G I h Q) w) :
    Safe step G I (m.orElse h) Q w := by
  induction m generalizing w with
  | ret a => exact hm
  | fail e => exact hm
  | call o k ih =>
      intro c hc
      obtain ⟨hI, hk⟩ := hm c hc
      exact ⟨hI, ih _ hk⟩

/-- One call that ends a program. -/
theorem safe_perform {o : Op} {Q : Except ε (Ret o) → σ → Prop} {w : σ}
    (h : ∀ c, G w o c → I (step w o c).2 ∧ Q (step w o c).1 (step w o c).2) :
    Safe step G I (Prog.perform o) Q w := by
  intro c hc
  refine ⟨(h c hc).1, ?_⟩
  have hpost := (h c hc).2
  cases hr : (step w o c).1 with
  | ok a => simpa [hr] using hpost
  | error e => simpa [hr] using hpost

/-- One call followed by the rest of the program. -/
theorem safe_perform_bind {o : Op} {f : Ret o → Prog Op Ret ε β}
    {Q : Except ε β → σ → Prop} {w : σ}
    (h : ∀ c, G w o c → I (step w o c).2 ∧
      thenPost step G I f Q (step w o c).1 (step w o c).2) :
    Safe step G I ((Prog.perform o).bind f) Q w := by
  apply safe_bind
  exact safe_perform h

/-- A loop keeps an invariant `J` of the elements done so far and the accumulator
when each iteration does, or ends by an exception with `E`. -/
theorem safe_foldlM {f : γ → β → Prog Op Ret ε γ} {l : List β} {s : γ} {w : σ}
    {Q : Except ε γ → σ → Prop} (J : List β → γ → σ → Prop) (E : ε → σ → Prop) (hs : J [] s w)
    (hQ : ∀ r w, (match r with | .ok s' => J l s' w | .error e => E e w) → Q r w)
    (hf : ∀ done x rest, l = done ++ x :: rest → ∀ s w, J done s w →
      Safe step G I (f s x)
        (fun r w => match r with | .ok s' => J (done ++ [x]) s' w | .error e => E e w) w) :
    Safe step G I (l.foldlM f s) Q w := by
  suffices h : ∀ (todo done : List β), l = done ++ todo → ∀ s w, J done s w →
      Safe step G I (todo.foldlM f s) Q w from h l [] rfl s w hs
  intro todo
  induction todo with
  | nil =>
      intro done hdone s w hs
      rw [List.append_nil] at hdone
      subst hdone
      exact hQ (.ok s) w hs
  | cons x todo ih =>
      intro done hdone s w hs
      rw [List.foldlM_cons]
      apply safe_bind
      apply safe_mono (hf done x todo hdone s w hs)
      intro r w hr
      cases r with
      | ok s' => exact ih (done ++ [x]) (by simp [hdone]) s' w hr
      | error e => exact hQ (.error e) w hr

variable (step G I) in
/-- The program keeps `I`, also where it raises, and `R` holds of what it returns. -/
def Establishes (m : Prog Op Ret ε α) (R : α → σ → Prop) (w : σ) : Prop :=
  Safe step G I m (fun r w' => I w' ∧ ∀ a, r = .ok a → R a w') w

theorem Establishes.mono {m : Prog Op Ret ε α} {R R' : α → σ → Prop} {w : σ}
    (hm : Establishes step G I m R w) (hR : ∀ a w', I w' → R a w' → R' a w') :
    Establishes step G I m R' w :=
  safe_mono hm fun _ w' h => ⟨h.1, fun a ha => hR a w' h.1 (h.2 a ha)⟩

theorem Establishes.bind {m : Prog Op Ret ε α} {f : α → Prog Op Ret ε β}
    {R : α → σ → Prop} {R' : β → σ → Prop} {w : σ} (hm : Establishes step G I m R w)
    (hf : ∀ a w', I w' → R a w' → Establishes step G I (f a) R' w') :
    Establishes step G I (m.bind f) R' w := by
  apply safe_bind
  apply safe_mono hm
  intro r w' hr
  cases r with
  | ok a => exact hf a w' hr.1 (hr.2 a rfl)
  | error e => exact ⟨hr.1, by simp⟩

theorem establishes_ret {a : α} {R : α → σ → Prop} {w : σ} (hw : I w) (h : R a w) :
    Establishes step G I (.ret a : Prog Op Ret ε α) R w := by
  refine ⟨hw, ?_⟩
  rintro _ ⟨⟩
  exact h

/-- A computation that may raise, followed by the rest of a program. -/
theorem establishes_ofExcept_bind {r : Except ε α} {f : α → Prog Op Ret ε β}
    {R : β → σ → Prop} {w : σ} (hw : I w)
    (hf : ∀ a, r = .ok a → Establishes step G I (f a) R w) :
    Establishes step G I ((Prog.ofExcept r).bind f) R w := by
  apply safe_bind
  rw [safe_ofExcept]
  cases r with
  | ok a => exact hf a rfl
  | error e => exact ⟨hw, by simp⟩

/-- A call that ends a program. -/
theorem establishes_perform {o : Op} {R : Ret o → σ → Prop} {w : σ}
    (h : ∀ c, G w o c → I (step w o c).2 ∧
      ∀ a, (step w o c).1 = .ok a → R a (step w o c).2) :
    Establishes step G I (Prog.perform o) R w :=
  safe_perform fun c hc => ⟨(h c hc).1, h c hc⟩

/-- A loop keeps `J` of the elements done so far and the accumulator when each iteration
does. -/
theorem establishes_foldlM {f : γ → β → Prog Op Ret ε γ} {l : List β} {s : γ} {w : σ}
    (J : List β → γ → σ → Prop) (hw : I w) (hs : J [] s w)
    (hf : ∀ done x rest, l = done ++ x :: rest → ∀ s w, I w → J done s w →
      Establishes step G I (f s x) (J (done ++ [x])) w) :
    Establishes step G I (l.foldlM f s) (J l) w := by
  apply safe_foldlM (fun done s w => I w ∧ J done s w) (fun _ w => I w) ⟨hw, hs⟩
  · intro r w' hr
    cases r with
    | ok s' => exact ⟨hr.1, fun _ ha => by cases ha; exact hr.2⟩
    | error e => exact ⟨hr, by simp⟩
  · intro done x rest hdone s w hJ
    apply safe_mono (hf done x rest hdone s w hJ.1 hJ.2)
    intro r w' hr
    cases r with
    | ok s' => exact ⟨hr.1, hr.2 s' rfl⟩
    | error e => exact hr.1

/-- A safe program run along any admitted script ends in an invariant state,
crashed or not, and in the postcondition if it stopped. -/
theorem Safe.run {m : Prog Op Ret ε α} {Q : Except ε α → σ → Prop} {w : σ}
    (hm : Safe step G I m Q w) (hw : I w) (cs : List χ)
    (hG : Guarded G (transitions step m cs w)) :
    I (Effects.run step m cs w).2 ∧
      ∀ r, (Effects.run step m cs w).1 = some r → Q r (Effects.run step m cs w).2 := by
  induction m generalizing cs w with
  | ret a => simpa using ⟨hw, hm⟩
  | fail e => simpa using ⟨hw, hm⟩
  | call o k ih =>
      cases cs with
      | nil => exact ⟨hw, by simp [Effects.run]⟩
      | cons c cs =>
          simp only [transitions, guarded_cons] at hG
          obtain ⟨hI, hk⟩ := hm c hG.1
          exact ih _ hk hI cs hG.2

/-- The invariant holds before and after each transition of a safe program. -/
theorem Safe.transitions {m : Prog Op Ret ε α} {Q : Except ε α → σ → Prop} {w : σ}
    (hm : Safe step G I m Q w) (hw : I w) (cs : List χ)
    (hG : Guarded G (transitions step m cs w)) :
    ∀ t ∈ Effects.transitions step m cs w, I t.before ∧ I (t.after step) := by
  induction m generalizing cs w with
  | ret a => simp
  | fail e => simp
  | call o k ih =>
      cases cs with
      | nil => simp [Effects.transitions]
      | cons c cs =>
          simp only [Effects.transitions, guarded_cons] at hG
          obtain ⟨hI, hk⟩ := hm c hG.1
          intro t ht
          obtain rfl | ht := List.mem_cons.mp ht
          · exact ⟨hw, hI⟩
          · exact ih _ hk hI cs hG.2 t ht

/-- An invariant that every program of a lifetime keeps safe holds after it. -/
theorem Lifetime.invariant {runs : Lifetime Op Ret ε α χ} {w : σ}
    (hsafe : ∀ r ∈ runs, ∀ w, I w → Safe step G I r.1 (fun _ w => I w) w)
    (hG : Guarded G (runs.transitions step w)) (hw : I w) :
    I (runs.final step w) := by
  induction runs generalizing w with
  | nil => exact hw
  | cons r runs ih =>
      simp only [Lifetime.transitions, guarded_append] at hG
      have hr := (hsafe r (by simp) w hw).run hw r.2 hG.1
      exact ih (fun r' hr' => hsafe r' (by simp [hr'])) hG.2 hr.1

/-- The invariant holds before and after each transition of a lifetime. -/
theorem Lifetime.invariant_transitions {runs : Lifetime Op Ret ε α χ} {w : σ}
    (hsafe : ∀ r ∈ runs, ∀ w, I w → Safe step G I r.1 (fun _ w => I w) w)
    (hG : Guarded G (runs.transitions step w)) (hw : I w) :
    ∀ t ∈ runs.transitions step w, I t.before ∧ I (t.after step) := by
  induction runs generalizing w with
  | nil => simp [Lifetime.transitions]
  | cons r runs ih =>
      simp only [Lifetime.transitions, guarded_append] at hG
      have hr := hsafe r (by simp) w hw
      intro t ht
      obtain ht | ht := List.mem_append.mp ht
      · exact hr.transitions hw r.2 hG.1 t ht
      · exact ih (fun r' hr' => hsafe r' (by simp [hr'])) hG.2 (hr.run hw r.2 hG.1).1 t ht

end Safe

end LocalGraphRag.Effects
