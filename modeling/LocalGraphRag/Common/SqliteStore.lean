import LocalGraphRag.Systems.Runs
import Mathlib.Algebra.Group.Nat.Even
import Mathlib.Data.Finset.Basic
import Mathlib.Logic.Function.Basic

/-!
# One connection per thread

A store opens a connection for every thread that uses it, keeps a list of them under a lock, and
closes them all at once from any thread. A thread finds its own connection in a thread-local
without the lock, so a close may come at any point of its access.

## Implementation notes

A connection is the number of connections that were opened before it. A thread reads the
thread-local once, and what it finds there is what it has put there itself, so an access begins
with one step. `close` takes two: it closes the connections, and then replaces the thread-local.
Both raise `version`, which is odd in between, while `close` has the lock. A thread that ends
is alive no more when a registration looks. `openers` records the past and is read by no step.
-/

namespace LocalGraphRag.Common

open LocalGraphRag.Systems

/-- Where a thread stands: it has found no connection, sets one up, or uses one that it got at
some version. -/
inductive ThreadPhase where
  | idle
  | missing
  | settingUp (conn : ℕ)
  | using (conn since : ℕ)
  | exited
  deriving DecidableEq

structure SqliteStore where
  version : ℕ
  cached : ℕ → Option ℕ
  tracked : List (ℕ × ℕ)
  opened : Finset ℕ
  openers : List ℕ
  phase : ℕ → ThreadPhase

inductive StoreEvent where
  | access (t : ℕ)
  | connect (t : ℕ)
  | connectFails (t : ℕ)
  | setupFails (t : ℕ)
  | register (t : ℕ)
  | finish (t : ℕ)
  | exit (t : ℕ)
  | closeAll
  | replaceLocal

namespace SqliteStore

def start : SqliteStore := ⟨0, fun _ => none, [], ∅, [], fun _ => .idle⟩

def goTo (σ : SqliteStore) (t : ℕ) (phase : ThreadPhase) : SqliteStore :=
  { σ with phase := Function.update σ.phase t phase }

/-- The connections of the threads that are alive. -/
def live (σ : SqliteStore) : List (ℕ × ℕ) := σ.tracked.filter fun p => σ.phase p.1 ≠ .exited

/-- Those of the threads that are not, which a registration closes. -/
def dead (σ : SqliteStore) : Finset ℕ :=
  ((σ.tracked.filter fun p => σ.phase p.1 = .exited).map Prod.snd).toFinset

def step (σ : SqliteStore) : StoreEvent → Option SqliteStore
  | .access t =>
      if σ.phase t = .idle then
        some (σ.goTo t ((σ.cached t).elim .missing fun c => .using c σ.version))
      else none
  | .connect t =>
      if σ.phase t = .missing then
        some { σ.goTo t (.settingUp σ.openers.length) with
               opened := insert σ.openers.length σ.opened, openers := σ.openers ++ [t] }
      else none
  | .connectFails t => if σ.phase t = .missing then some (σ.goTo t .idle) else none
  | .setupFails t =>
      match σ.phase t with
      | .settingUp c => some { σ.goTo t .idle with opened := σ.opened.erase c }
      | _ => none
  | .register t =>
      match σ.phase t with
      | .settingUp c =>
          if Even σ.version then
            some { σ.goTo t (.using c σ.version) with
                   tracked := σ.live ++ [(t, c)], opened := σ.opened \ σ.dead,
                   cached := Function.update σ.cached t (some c) }
          else none
      | _ => none
  | .finish t =>
      match σ.phase t with
      | .using _ _ => some (σ.goTo t .idle)
      | _ => none
  | .exit t => if σ.phase t = .idle then some (σ.goTo t .exited) else none
  | .closeAll =>
      if Even σ.version then
        some { σ with version := σ.version + 1, tracked := [],
                      opened := σ.opened \ (σ.tracked.map Prod.snd).toFinset }
      else none
  | .replaceLocal =>
      if Even σ.version then none
      else some { σ with version := σ.version + 1, cached := fun _ => none }

/-- What an event does. -/
inductive Step (σ : SqliteStore) : StoreEvent → SqliteStore → Prop where
  | found (t c : ℕ) (hphase : σ.phase t = .idle) (hcached : σ.cached t = some c) :
      Step σ (.access t) (σ.goTo t (.using c σ.version))
  | missed (t : ℕ) (hphase : σ.phase t = .idle) (hcached : σ.cached t = none) :
      Step σ (.access t) (σ.goTo t .missing)
  | connected (t : ℕ) (hphase : σ.phase t = .missing) : Step σ (.connect t)
      { σ.goTo t (.settingUp σ.openers.length) with
        opened := insert σ.openers.length σ.opened, openers := σ.openers ++ [t] }
  | refused (t : ℕ) (hphase : σ.phase t = .missing) : Step σ (.connectFails t) (σ.goTo t .idle)
  | dropped (t c : ℕ) (hphase : σ.phase t = .settingUp c) : Step σ (.setupFails t)
      { σ.goTo t .idle with opened := σ.opened.erase c }
  | registered (t c : ℕ) (hphase : σ.phase t = .settingUp c) (hversion : Even σ.version) :
      Step σ (.register t)
      { σ.goTo t (.using c σ.version) with
        tracked := σ.live ++ [(t, c)], opened := σ.opened \ σ.dead,
        cached := Function.update σ.cached t (some c) }
  | finished (t c since : ℕ) (hphase : σ.phase t = .using c since) :
      Step σ (.finish t) (σ.goTo t .idle)
  | exited (t : ℕ) (hphase : σ.phase t = .idle) : Step σ (.exit t) (σ.goTo t .exited)
  | closed (hversion : Even σ.version) : Step σ .closeAll
      { σ with version := σ.version + 1, tracked := [],
               opened := σ.opened \ (σ.tracked.map Prod.snd).toFinset }
  | replaced (hversion : ¬ Even σ.version) : Step σ .replaceLocal
      { σ with version := σ.version + 1, cached := fun _ => none }

section Steps
variable {σ σ' : SqliteStore} {event : StoreEvent}

theorem step_cases (h : σ.step event = some σ') : Step σ event σ' := by
  cases event with
  | access t =>
      obtain ⟨hphase, hσ'⟩ := Option.ite_none_right_eq_some.mp h
      cases hcached : σ.cached t with
      | none =>
          rw [hcached] at hσ'
          cases hσ'
          exact .missed t hphase hcached
      | some c =>
          rw [hcached] at hσ'
          cases hσ'
          exact .found t c hphase hcached
  | connect t =>
      obtain ⟨hphase, hσ'⟩ := Option.ite_none_right_eq_some.mp h
      cases hσ'
      exact .connected t hphase
  | connectFails t =>
      obtain ⟨hphase, hσ'⟩ := Option.ite_none_right_eq_some.mp h
      cases hσ'
      exact .refused t hphase
  | setupFails t =>
      simp only [step] at h
      split at h
      · rename_i c hphase
        cases h
        exact .dropped t c hphase
      · cases h
  | register t =>
      simp only [step] at h
      split at h
      · rename_i c hphase
        obtain ⟨hversion, hσ'⟩ := Option.ite_none_right_eq_some.mp h
        cases hσ'
        exact .registered t c hphase hversion
      · cases h
  | finish t =>
      simp only [step] at h
      split at h
      · rename_i c since hphase
        cases h
        exact .finished t c since hphase
      · cases h
  | exit t =>
      obtain ⟨hphase, hσ'⟩ := Option.ite_none_right_eq_some.mp h
      cases hσ'
      exact .exited t hphase
  | closeAll =>
      obtain ⟨hversion, hσ'⟩ := Option.ite_none_right_eq_some.mp h
      cases hσ'
      exact .closed hversion
  | replaceLocal =>
      obtain ⟨hversion, hσ'⟩ := Option.ite_none_left_eq_some.mp h
      cases hσ'
      exact .replaced hversion

end Steps

section Invariant
variable {σ σ' : SqliteStore} {event : StoreEvent}

/-- A thread has a connection: in the list, in its thread-local, or in hand. -/
def Has (σ : SqliteStore) (t c : ℕ) : Prop :=
  (t, c) ∈ σ.tracked ∨ σ.cached t = some c ∨ σ.phase t = .settingUp c ∨
    ∃ since, σ.phase t = .using c since

/-- What the lock protects, and what the threads keep to by themselves. -/
structure Kept (σ : SqliteStore) : Prop where
  nodup : (σ.tracked.map Prod.fst).Nodup
  tracked_opened : ∀ t c, (t, c) ∈ σ.tracked → c ∈ σ.opened
  tracked_cached : ∀ t c, (t, c) ∈ σ.tracked → σ.cached t = some c
  cached_tracked : ∀ t c, Even σ.version → σ.phase t ≠ .exited → σ.cached t = some c →
    (t, c) ∈ σ.tracked
  closing : ¬ Even σ.version → σ.tracked = []
  uncached : ∀ t, (σ.phase t = .missing ∨ ∃ c, σ.phase t = .settingUp c) → σ.cached t = none
  opened_held : ∀ c ∈ σ.opened, (∃ t, (t, c) ∈ σ.tracked) ∨ ∃ t, σ.phase t = .settingUp c
  settingUp_opened : ∀ t c, σ.phase t = .settingUp c → c ∈ σ.opened
  opener : ∀ t c, σ.Has t c → σ.openers[c]? = some t
  usable : ∀ t c, Even σ.version → σ.phase t = .using c σ.version → (t, c) ∈ σ.tracked
  tracked_since : ∀ t c since, (t, c) ∈ σ.tracked → σ.phase t = .using c since →
    since = σ.version
  since_le : ∀ t c since, σ.phase t = .using c since → since ≤ σ.version

theorem kept_start : Kept start where
  nodup := List.nodup_nil
  tracked_opened := by simp [start]
  tracked_cached := by simp [start]
  cached_tracked := by simp [start]
  closing := by simp [start]
  uncached := by simp [start]
  opened_held := by simp [start]
  settingUp_opened := by simp [start]
  opener := by simp [start, Has]
  usable := by simp [start]
  tracked_since := by simp [start]
  since_le := by simp [start]

@[simp] theorem goTo_phase_self (σ : SqliteStore) (t : ℕ) (phase : ThreadPhase) :
    (σ.goTo t phase).phase t = phase := Function.update_self ..

theorem goTo_phase_of_ne (σ : SqliteStore) {t t' : ℕ} (h : t' ≠ t) (phase : ThreadPhase) :
    (σ.goTo t phase).phase t' = σ.phase t' := Function.update_of_ne h ..

theorem goTo_phase_eq_iff {t t' : ℕ} {phase phase' : ThreadPhase} :
    (σ.goTo t phase).phase t' = phase' ↔
      (t' = t ∧ phase = phase') ∨ (t' ≠ t ∧ σ.phase t' = phase') := by
  by_cases ht : t' = t
  · subst ht
    simp
  · simp [goTo_phase_of_ne σ ht, ht]

section GoTo
variable {t t' c since : ℕ} {phase : ThreadPhase}

/-- Who is alive after a thread that was alive went on was alive before. -/
theorem alive_of_goTo (halive : σ.phase t ≠ .exited)
    (h : (σ.goTo t phase).phase t' ≠ .exited) : σ.phase t' ≠ .exited := by
  by_cases ht : t' = t
  · exact ht ▸ halive
  · rwa [goTo_phase_of_ne σ ht] at h

theorem settingUp_of_goTo (hnew : ∀ c, phase ≠ .settingUp c)
    (h : (σ.goTo t phase).phase t' = .settingUp c) : σ.phase t' = .settingUp c := by
  obtain ⟨-, hphase⟩ | ⟨-, hphase⟩ := goTo_phase_eq_iff.mp h
  · exact absurd hphase (hnew c)
  · exact hphase

theorem using_of_goTo (hnew : ∀ c since, phase ≠ .using c since)
    (h : (σ.goTo t phase).phase t' = .using c since) : σ.phase t' = .using c since := by
  obtain ⟨-, hphase⟩ | ⟨-, hphase⟩ := goTo_phase_eq_iff.mp h
  · exact absurd hphase (hnew c since)
  · exact hphase

/-- A thread has nothing new when the one that went on uses what it had. -/
theorem has_of_goTo (hnew : ∀ c, phase ≠ .settingUp c)
    (husing : ∀ c since, phase = .using c since → σ.Has t c)
    (h : (σ.goTo t phase).Has t' c) : σ.Has t' c := by
  obtain htracked | hcached | hphase | ⟨since, hphase⟩ := h
  · exact Or.inl htracked
  · exact Or.inr (Or.inl hcached)
  · exact Or.inr (Or.inr (Or.inl (settingUp_of_goTo hnew hphase)))
  · obtain ⟨rfl, hnow⟩ | ⟨-, hphase⟩ := goTo_phase_eq_iff.mp hphase
    · exact husing c since hnow
    · exact Or.inr (Or.inr (Or.inr ⟨since, hphase⟩))

/-- Another connection that is being set up still is. -/
theorem opened_held_goTo (hheld : (∃ t', (t', c) ∈ σ.tracked) ∨ ∃ t', σ.phase t' = .settingUp c)
    (hold : σ.phase t ≠ .settingUp c) :
    (∃ t', (t', c) ∈ σ.tracked) ∨ ∃ t', (σ.goTo t phase).phase t' = .settingUp c := by
  refine hheld.imp_right fun ⟨t', hphase⟩ => ⟨t', goTo_phase_eq_iff.mpr (Or.inr ⟨?_, hphase⟩)⟩
  rintro rfl
  exact hold hphase

end GoTo

/-- A thread that neither had nor gets a connection of its own to set up. -/
theorem Kept.goTo (h : Kept σ) {t : ℕ} {phase : ThreadPhase}
    (hold : ∀ c, σ.phase t ≠ .settingUp c) (hexited : σ.phase t ≠ .exited)
    (hnew : ∀ c, phase ≠ .settingUp c) (hmissing : phase = .missing → σ.cached t = none)
    (husing : ∀ c since, phase = .using c since → since = σ.version ∧ σ.Has t c ∧
      (Even σ.version → (t, c) ∈ σ.tracked)) :
    Kept (σ.goTo t phase) where
  nodup := h.nodup
  tracked_opened := h.tracked_opened
  tracked_cached := h.tracked_cached
  cached_tracked := fun t' c hversion hphase hcached =>
    h.cached_tracked t' c hversion (alive_of_goTo hexited hphase) hcached
  closing := h.closing
  uncached := by
    intro t' hphase
    obtain hphase | ⟨c, hphase⟩ := hphase
    · obtain ⟨rfl, hnow⟩ | ⟨-, hphase⟩ := goTo_phase_eq_iff.mp hphase
      · exact hmissing hnow
      · exact h.uncached t' (Or.inl hphase)
    · exact h.uncached t' (Or.inr ⟨c, settingUp_of_goTo hnew hphase⟩)
  opened_held := fun c hc => opened_held_goTo (h.opened_held c hc) (hold c)
  settingUp_opened := fun t' c hphase => h.settingUp_opened t' c (settingUp_of_goTo hnew hphase)
  opener := fun t' c hhas =>
    h.opener t' c (has_of_goTo hnew (fun c since hphase => (husing c since hphase).2.1) hhas)
  usable := by
    intro t' c hversion hphase
    obtain ⟨rfl, hnow⟩ | ⟨-, hphase⟩ := goTo_phase_eq_iff.mp hphase
    · exact (husing c _ hnow).2.2 hversion
    · exact h.usable t' c hversion hphase
  tracked_since := by
    intro t' c since htracked hphase
    obtain ⟨-, hphase⟩ | ⟨-, hphase⟩ := goTo_phase_eq_iff.mp hphase
    · exact (husing c since hphase).1
    · exact h.tracked_since t' c since htracked hphase
  since_le := by
    intro t' c since hphase
    obtain ⟨-, hphase⟩ | ⟨-, hphase⟩ := goTo_phase_eq_iff.mp hphase
    · exact (husing c since hphase).1.le
    · exact h.since_le t' c since hphase

/-- A thread has one connection to set up, and none else. -/
theorem Kept.settingUp_notMem (h : Kept σ) {t c : ℕ} (hphase : σ.phase t = .settingUp c) (c' : ℕ) :
    (t, c') ∉ σ.tracked := by
  intro hmem
  have hcached := h.tracked_cached t c' hmem
  rw [h.uncached t (Or.inr ⟨c, hphase⟩)] at hcached
  cases hcached

/-- No two threads have the same connection. -/
theorem Kept.has_unique (h : Kept σ) {t t' c : ℕ} (ht : σ.Has t c) (ht' : σ.Has t' c) : t = t' :=
  Option.some.inj ((h.opener t c ht).symm.trans (h.opener t' c ht'))

theorem mem_live {t c : ℕ} : (t, c) ∈ σ.live ↔ (t, c) ∈ σ.tracked ∧ σ.phase t ≠ .exited := by
  rw [live, List.mem_filter, decide_eq_true_eq]

theorem mem_dead {c : ℕ} : c ∈ σ.dead ↔ ∃ t, (t, c) ∈ σ.tracked ∧ σ.phase t = .exited := by
  simp [dead]

theorem Kept.connect (h : Kept σ) {t : ℕ} (hphase : σ.phase t = .missing) :
    Kept { σ.goTo t (.settingUp σ.openers.length) with
           opened := insert σ.openers.length σ.opened, openers := σ.openers ++ [t] } where
  nodup := h.nodup
  tracked_opened := fun t' c hmem => Finset.mem_insert_of_mem (h.tracked_opened t' c hmem)
  tracked_cached := h.tracked_cached
  cached_tracked := fun t' c hversion hphase' hcached =>
    h.cached_tracked t' c hversion (alive_of_goTo (by simp [hphase]) hphase') hcached
  closing := h.closing
  uncached := by
    intro t' hphase'
    by_cases ht : t' = t
    · exact ht ▸ h.uncached t (Or.inl hphase)
    · exact h.uncached t' (by rwa [← goTo_phase_of_ne σ ht])
  opened_held := by
    intro c hc
    obtain rfl | hc := Finset.mem_insert.mp hc
    · exact Or.inr ⟨t, goTo_phase_self ..⟩
    · exact opened_held_goTo (h.opened_held c hc) (by simp [hphase])
  settingUp_opened := by
    intro t' c hphase'
    obtain ⟨-, hphase'⟩ | ⟨-, hphase'⟩ := goTo_phase_eq_iff.mp hphase'
    · cases hphase'
      exact Finset.mem_insert_self _ _
    · exact Finset.mem_insert_of_mem (h.settingUp_opened t' c hphase')
  opener := by
    have hkept : ∀ t' c, σ.Has t' c → (σ.openers ++ [t])[c]? = some t' := by
      intro t' c hhas
      have hc := h.opener t' c hhas
      rw [List.getElem?_append_left (List.getElem?_eq_some_iff.mp hc).1, hc]
    intro t' c hhas
    obtain htracked | hcached | hphase' | ⟨since, hphase'⟩ := hhas
    · exact hkept t' c (Or.inl htracked)
    · exact hkept t' c (Or.inr (Or.inl hcached))
    · obtain ⟨rfl, hnow⟩ | ⟨-, hphase'⟩ := goTo_phase_eq_iff.mp hphase'
      · cases hnow
        exact List.getElem?_concat_length
      · exact hkept t' c (Or.inr (Or.inr (Or.inl hphase')))
    · exact hkept t' c (Or.inr (Or.inr (Or.inr ⟨since, using_of_goTo (by simp) hphase'⟩)))
  usable := fun t' c hversion hphase' =>
    h.usable t' c hversion (using_of_goTo (by simp) hphase')
  tracked_since := fun t' c since htracked hphase' =>
    h.tracked_since t' c since htracked (using_of_goTo (by simp) hphase')
  since_le := fun t' c since hphase' => h.since_le t' c since (using_of_goTo (by simp) hphase')

theorem Kept.drop (h : Kept σ) {t c : ℕ} (hphase : σ.phase t = .settingUp c) :
    Kept { σ.goTo t .idle with opened := σ.opened.erase c } where
  nodup := h.nodup
  tracked_opened := by
    intro t' c' hmem
    refine Finset.mem_erase.mpr ⟨?_, h.tracked_opened t' c' hmem⟩
    rintro rfl
    have ht := h.has_unique (Or.inl hmem) (Or.inr (Or.inr (Or.inl hphase)))
    exact h.settingUp_notMem hphase c' (ht ▸ hmem)
  tracked_cached := h.tracked_cached
  cached_tracked := fun t' c' hversion hphase' hcached =>
    h.cached_tracked t' c' hversion (alive_of_goTo (by simp [hphase]) hphase') hcached
  closing := h.closing
  uncached := by
    intro t' hphase'
    simp only [goTo_phase_eq_iff, reduceCtorEq, and_false, false_or] at hphase'
    apply h.uncached t'
    obtain ⟨-, hphase'⟩ | ⟨c', -, hphase'⟩ := hphase'
    · exact Or.inl hphase'
    · exact Or.inr ⟨c', hphase'⟩
  opened_held := by
    intro c' hc'
    obtain ⟨hne, hc'⟩ := Finset.mem_erase.mp hc'
    exact opened_held_goTo (h.opened_held c' hc') (by simpa [hphase] using hne.symm)
  settingUp_opened := by
    intro t' c' hphase'
    obtain ⟨-, hphase'⟩ | ⟨ht, hphase'⟩ := goTo_phase_eq_iff.mp hphase'
    · cases hphase'
    · refine Finset.mem_erase.mpr ⟨fun hc => ?_, h.settingUp_opened t' c' hphase'⟩
      rw [hc] at hphase'
      exact ht (h.has_unique (Or.inr (Or.inr (Or.inl hphase'))) (Or.inr (Or.inr (Or.inl hphase))))
  opener := fun t' c' hhas => h.opener t' c' (has_of_goTo (by simp) (by simp) hhas)
  usable := fun t' c' hversion hphase' =>
    h.usable t' c' hversion (using_of_goTo (by simp) hphase')
  tracked_since := fun t' c' since htracked hphase' =>
    h.tracked_since t' c' since htracked (using_of_goTo (by simp) hphase')
  since_le := fun t' c' since hphase' => h.since_le t' c' since (using_of_goTo (by simp) hphase')

section Register
variable {t c : ℕ}

theorem mem_live_concat {t' c' : ℕ} : (t', c') ∈ σ.live ++ [(t, c)] ↔
    ((t', c') ∈ σ.tracked ∧ σ.phase t' ≠ .exited) ∨ (t' = t ∧ c' = c) := by
  rw [List.mem_append, mem_live, List.mem_singleton, Prod.mk.injEq]

theorem update_cached_eq_some_iff {t' c' : ℕ} :
    Function.update σ.cached t (some c) t' = some c' ↔
      (t' = t ∧ c' = c) ∨ (t' ≠ t ∧ σ.cached t' = some c') := by
  by_cases ht : t' = t
  · subst ht
    simp [eq_comm]
  · simp [ht]

/-- A registration closes no connection of a thread that is alive. -/
theorem Kept.notMem_dead (h : Kept σ) (hhas : σ.Has t c) (halive : σ.phase t ≠ .exited) :
    c ∉ σ.dead := by
  intro hdead
  obtain ⟨t', htracked, hexited⟩ := mem_dead.mp hdead
  cases h.has_unique hhas (Or.inl htracked)
  exact halive hexited

/-- A thread has nothing new after a registration but the one that registers. -/
theorem has_of_register (hphase : σ.phase t = .settingUp c) {t' c' : ℕ}
    (hhas : Has { σ.goTo t (.using c σ.version) with
      tracked := σ.live ++ [(t, c)], opened := σ.opened \ σ.dead,
      cached := Function.update σ.cached t (some c) } t' c') : σ.Has t' c' := by
  have hself : σ.Has t c := Or.inr (Or.inr (Or.inl hphase))
  obtain hmem | hcached | hphase' := hhas
  · obtain ⟨htracked, -⟩ | ⟨rfl, rfl⟩ := mem_live_concat.mp hmem
    · exact Or.inl htracked
    · exact hself
  · obtain ⟨rfl, rfl⟩ | ⟨-, hcached⟩ := update_cached_eq_some_iff.mp hcached
    · exact hself
    · exact Or.inr (Or.inl hcached)
  · refine has_of_goTo (by simp) ?_ (Or.inr (Or.inr hphase'))
    intro c'' since husing
    cases husing
    exact hself

variable (h : Kept σ) (hphase : σ.phase t = .settingUp c)
include h hphase

theorem Kept.nodup_live_concat : ((σ.live ++ [(t, c)]).map Prod.fst).Nodup := by
  have hlive : (σ.live.map Prod.fst).Nodup := h.nodup.sublist (List.filter_sublist.map _)
  rw [List.map_append, List.map_singleton, List.nodup_append]
  refine ⟨hlive, List.nodup_singleton t, ?_⟩
  intro t' ht' t'' ht'' heq
  obtain ⟨⟨t₀, c₀⟩, hp, rfl⟩ := List.mem_map.mp ht'
  cases heq.trans (List.mem_singleton.mp ht'')
  exact h.settingUp_notMem hphase c₀ (mem_live.mp hp).1

theorem Kept.opened_of_live_concat {t' c' : ℕ} (hmem : (t', c') ∈ σ.live ++ [(t, c)]) :
    c' ∈ σ.opened \ σ.dead := by
  rw [Finset.mem_sdiff]
  obtain ⟨htracked, halive⟩ | ⟨rfl, rfl⟩ := mem_live_concat.mp hmem
  · exact ⟨h.tracked_opened t' c' htracked, h.notMem_dead (Or.inl htracked) halive⟩
  · exact ⟨h.settingUp_opened t' c' hphase,
      h.notMem_dead (Or.inr (Or.inr (Or.inl hphase))) (by simp [hphase])⟩

theorem Kept.cached_of_live_concat {t' c' : ℕ} (hmem : (t', c') ∈ σ.live ++ [(t, c)]) :
    Function.update σ.cached t (some c) t' = some c' := by
  rw [update_cached_eq_some_iff]
  obtain ⟨htracked, -⟩ | hnew := mem_live_concat.mp hmem
  · refine Or.inr ⟨?_, h.tracked_cached t' c' htracked⟩
    rintro rfl
    exact h.settingUp_notMem hphase c' htracked
  · exact Or.inl hnew

/-- What stays open is in the new list, or still being set up by another thread. -/
theorem Kept.held_of_register {c' : ℕ} (hc : c' ∈ σ.opened \ σ.dead) :
    (∃ t', (t', c') ∈ σ.live ++ [(t, c)]) ∨ ∃ t', t' ≠ t ∧ σ.phase t' = .settingUp c' := by
  obtain ⟨hc, hdead⟩ := Finset.mem_sdiff.mp hc
  obtain ⟨t', htracked⟩ | ⟨t', hphase'⟩ := h.opened_held c' hc
  · have halive : σ.phase t' ≠ .exited := fun hexited =>
      hdead (mem_dead.mpr ⟨t', htracked, hexited⟩)
    exact Or.inl ⟨t', mem_live_concat.mpr (Or.inl ⟨htracked, halive⟩)⟩
  · by_cases ht : t' = t
    · subst ht
      cases hphase.symm.trans hphase'
      exact Or.inl ⟨t', mem_live_concat.mpr (Or.inr ⟨rfl, rfl⟩)⟩
    · exact Or.inr ⟨t', ht, hphase'⟩

theorem Kept.register (hversion : Even σ.version) :
    Kept { σ.goTo t (.using c σ.version) with
           tracked := σ.live ++ [(t, c)], opened := σ.opened \ σ.dead,
           cached := Function.update σ.cached t (some c) } where
  nodup := h.nodup_live_concat hphase
  tracked_opened := fun _ _ hmem => h.opened_of_live_concat hphase hmem
  tracked_cached := fun _ _ hmem => h.cached_of_live_concat hphase hmem
  cached_tracked := by
    intro t' c' _ hphase' hcached
    obtain hnew | ⟨-, hcached⟩ := update_cached_eq_some_iff.mp hcached
    · exact mem_live_concat.mpr (Or.inr hnew)
    · have halive := alive_of_goTo (by simp [hphase]) hphase'
      exact mem_live_concat.mpr
        (Or.inl ⟨h.cached_tracked t' c' hversion halive hcached, halive⟩)
  closing := fun hodd => absurd hversion hodd
  uncached := by
    intro t' hphase'
    simp only [goTo_phase_eq_iff, reduceCtorEq, and_false, false_or, exists_and_left,
      ← and_or_left] at hphase'
    exact (Function.update_of_ne hphase'.1 ..).trans (h.uncached t' hphase'.2)
  opened_held := by
    intro c' hc'
    obtain hmem | ⟨t', ht, hphase'⟩ := h.held_of_register hphase hc'
    · exact Or.inl hmem
    · exact Or.inr ⟨t', goTo_phase_eq_iff.mpr (Or.inr ⟨ht, hphase'⟩)⟩
  settingUp_opened := by
    intro t' c' hphase'
    have hsettingUp := settingUp_of_goTo (by simp) hphase'
    exact Finset.mem_sdiff.mpr ⟨h.settingUp_opened t' c' hsettingUp,
      h.notMem_dead (Or.inr (Or.inr (Or.inl hsettingUp))) (by simp [hsettingUp])⟩
  opener := fun t' c' hhas => h.opener t' c' (has_of_register hphase hhas)
  usable := by
    intro t' c' _ hphase'
    obtain ⟨ht, hphase'⟩ | ⟨-, hphase'⟩ := goTo_phase_eq_iff.mp hphase'
    · cases hphase'
      exact mem_live_concat.mpr (Or.inr ⟨ht, rfl⟩)
    · exact mem_live_concat.mpr
        (Or.inl ⟨h.usable t' c' hversion hphase', by simp [hphase']⟩)
  tracked_since := by
    intro t' c' since hmem hphase'
    obtain ⟨-, hphase'⟩ | ⟨ht, hphase'⟩ := goTo_phase_eq_iff.mp hphase'
    · cases hphase'
      rfl
    · obtain ⟨htracked, -⟩ | ⟨rfl, -⟩ := mem_live_concat.mp hmem
      · exact h.tracked_since t' c' since htracked hphase'
      · exact absurd rfl ht
  since_le := by
    intro t' c' since hphase'
    obtain ⟨-, hphase'⟩ | ⟨-, hphase'⟩ := goTo_phase_eq_iff.mp hphase'
    · cases hphase'
      exact le_rfl
    · exact h.since_le t' c' since hphase'

end Register

theorem Kept.close (h : Kept σ) (hversion : Even σ.version) :
    Kept { σ with version := σ.version + 1, tracked := [],
                  opened := σ.opened \ (σ.tracked.map Prod.snd).toFinset } where
  nodup := List.nodup_nil
  tracked_opened := fun t c hmem => absurd hmem List.not_mem_nil
  tracked_cached := fun t c hmem => absurd hmem List.not_mem_nil
  cached_tracked := fun t c heven => absurd hversion (Nat.even_add_one.mp heven)
  closing := fun _ => rfl
  uncached := h.uncached
  opened_held := by
    intro c hc
    obtain ⟨hc, hclosed⟩ := Finset.mem_sdiff.mp hc
    obtain ⟨t, htracked⟩ | hsettingUp := h.opened_held c hc
    · exact absurd (List.mem_toFinset.mpr (List.mem_map_of_mem htracked)) hclosed
    · exact Or.inr hsettingUp
  settingUp_opened := by
    intro t c hphase
    refine Finset.mem_sdiff.mpr ⟨h.settingUp_opened t c hphase, fun hclosed => ?_⟩
    obtain ⟨⟨t', c'⟩, htracked, rfl⟩ := List.mem_map.mp (List.mem_toFinset.mp hclosed)
    cases h.has_unique (Or.inr (Or.inr (Or.inl hphase))) (Or.inl htracked)
    exact h.settingUp_notMem hphase c' htracked
  opener := by
    intro t c hhas
    apply h.opener t c
    obtain hmem | hhas := hhas
    · exact absurd hmem List.not_mem_nil
    · exact Or.inr hhas
  usable := fun t c heven => absurd hversion (Nat.even_add_one.mp heven)
  tracked_since := fun t c since hmem => absurd hmem List.not_mem_nil
  since_le := fun t c since hphase => (h.since_le t c since hphase).trans (Nat.le_succ _)

theorem Kept.replace (h : Kept σ) (hversion : ¬ Even σ.version) :
    Kept { σ with version := σ.version + 1, cached := fun _ => none } where
  nodup := h.nodup
  tracked_opened := h.tracked_opened
  tracked_cached := by simp [h.closing hversion]
  cached_tracked := fun t c _ _ hcached => absurd hcached (by simp)
  closing := fun _ => h.closing hversion
  uncached := fun _ _ => rfl
  opened_held := h.opened_held
  settingUp_opened := h.settingUp_opened
  opener := by
    intro t c hhas
    apply h.opener t c
    obtain hmem | hcached | hhas := hhas
    · exact Or.inl hmem
    · cases hcached
    · exact Or.inr (Or.inr hhas)
  usable := by
    intro t c _ hphase
    have hle := h.since_le t c _ hphase
    change σ.version + 1 ≤ σ.version at hle
    omega
  tracked_since := by simp [h.closing hversion]
  since_le := fun t c since hphase => (h.since_le t c since hphase).trans (Nat.le_succ _)

theorem Kept.step (h : Kept σ) (hstep : σ.step event = some σ') : Kept σ' := by
  cases step_cases hstep with
  | found t c hphase hcached =>
      have hne : ∀ c, σ.phase t ≠ .settingUp c := by simp [hphase]
      refine h.goTo hne (by simp [hphase]) (by simp) (by simp) ?_
      intro c' since husing
      cases husing
      refine ⟨rfl, Or.inr (Or.inl hcached), fun heven => ?_⟩
      exact h.cached_tracked t c heven (by simp [hphase]) hcached
  | missed t hphase hcached =>
      exact h.goTo (by simp [hphase]) (by simp [hphase]) (by simp) (fun _ => hcached) (by simp)
  | connected t hphase => exact h.connect hphase
  | refused t hphase =>
      exact h.goTo (by simp [hphase]) (by simp [hphase]) (by simp) (by simp) (by simp)
  | dropped t c hphase => exact h.drop hphase
  | registered t c hphase hversion => exact h.register hphase hversion
  | finished t c since hphase =>
      exact h.goTo (by simp [hphase]) (by simp [hphase]) (by simp) (by simp) (by simp)
  | exited t hphase =>
      exact h.goTo (by simp [hphase]) (by simp [hphase]) (by simp) (by simp) (by simp)
  | closed hversion => exact h.close hversion
  | replaced hversion => exact h.replace hversion

theorem Kept.opened_opener (h : Kept σ) {c : ℕ} (hc : c ∈ σ.opened) :
    ∃ t, σ.openers[c]? = some t ∧ ((t, c) ∈ σ.tracked ∨ σ.phase t = .settingUp c) := by
  obtain ⟨t, htracked⟩ | ⟨t, hphase⟩ := h.opened_held c hc
  · exact ⟨t, h.opener t c (Or.inl htracked), Or.inl htracked⟩
  · exact ⟨t, h.opener t c (Or.inr (Or.inr (Or.inl hphase))), Or.inr hphase⟩

/-- A thread opens no connection while its last one is open. -/
theorem Kept.opened_unique (h : Kept σ) {c c' : ℕ} (hc : c ∈ σ.opened) (hc' : c' ∈ σ.opened)
    (heq : σ.openers[c]? = σ.openers[c']?) : c = c' := by
  obtain ⟨t, ht, hheld⟩ := h.opened_opener hc
  obtain ⟨t', ht', hheld'⟩ := h.opened_opener hc'
  cases ht.symm.trans (heq.trans ht')
  obtain htracked | hphase := hheld
  · obtain htracked' | hphase' := hheld'
    · exact Option.some.inj
        ((h.tracked_cached t c htracked).symm.trans (h.tracked_cached t c' htracked'))
    · exact absurd htracked (h.settingUp_notMem hphase' c)
  · obtain htracked' | hphase' := hheld'
    · exact absurd htracked' (h.settingUp_notMem hphase c')
    · cases hphase.symm.trans hphase'
      rfl

theorem kept_of_run {events : List StoreEvent} (h : run step start events = some σ) : Kept σ :=
  run_invariant (fun _ _ _ ht hu => ht.step hu) kept_start h

/-- A connection in use is open as long as no close ran at its access or has begun since. -/
theorem Kept.using_opened_iff (h : Kept σ) {t c since : ℕ} (hphase : σ.phase t = .using c since) :
    c ∈ σ.opened ↔ Even since ∧ since = σ.version := by
  have hhas : σ.Has t c := Or.inr (Or.inr (Or.inr ⟨since, hphase⟩))
  constructor
  · intro hc
    obtain ⟨t', htracked⟩ | ⟨t', hphase'⟩ := h.opened_held c hc
    · cases h.has_unique hhas (Or.inl htracked)
      obtain rfl := h.tracked_since t c since htracked hphase
      refine ⟨?_, rfl⟩
      by_contra hodd
      rw [h.closing hodd] at htracked
      cases htracked
    · cases h.has_unique hhas (Or.inr (Or.inr (Or.inl hphase')))
      cases hphase.symm.trans hphase'
  · rintro ⟨heven, rfl⟩
    exact h.tracked_opened t c (h.usable t c heven hphase)

end Invariant

/-- Two threads, of which the first comes back during a close and the second sets its
connection up meanwhile. -/
def closedInBetween : List StoreEvent :=
  [.access 0, .connect 0, .register 0, .finish 0, .access 1, .connect 1, .closeAll, .access 0,
   .replaceLocal, .register 1]

end SqliteStore

end LocalGraphRag.Common
