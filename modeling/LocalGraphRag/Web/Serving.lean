import LocalGraphRag.Python.Numerals
import LocalGraphRag.Rag.OllamaClient
import LocalGraphRag.Web.Capacity
import Mathlib.Algebra.Order.BigOperators.Group.List

/-!
# Requests, workers and generation slots

A request that is admitted becomes a job of the executor, and its job calls Ollama, one call
after the other. The permits of the pipeline, the workers and the generation slots are three
stocks of their own. A request may wait for a permit, but what is admitted waits for nothing more.

## Implementation notes

The requests are those of the pipeline and the calls are those of the client, with the steps
that they have there. A worker has a job until the job ends, and a job ends between two calls,
since a generator that is given up is closed at once. The jobs that close the sessions at the
end are left out.
-/

namespace LocalGraphRag.Web

open LocalGraphRag.Python LocalGraphRag.Systems LocalGraphRag.Rag

/-- `_validate_concurrency_settings`. -/
def validateConcurrencySettings (ragExecutorWorkers generationConcurrencyLimit : ℤ) :
    Except Text Unit :=
  if ragExecutorWorkers < generationConcurrencyLimit then
    .error (text ("settings: RAG_EXECUTOR_WORKERS must be >= GENERATION_CONCURRENCY_LIMIT so " ++
        "every admitted request gets a worker instead of queueing inside the executor, got ") ++
      intText ragExecutorWorkers ++ text " < " ++ intText generationConcurrencyLimit)
  else .ok ()

/-- A request with the worker of its job and the last call of Ollama that the job has made. -/
structure Served where
  request : RagRequest
  started : Bool
  call : Option OllamaCall
  deriving DecidableEq

namespace Served

/-- The job is not in a call. -/
def betweenCalls (p : Served) : Bool :=
  match p.call with
  | none | some ⟨_, .ended _, _, _⟩ => true
  | _ => false

/-- A worker has the job. -/
def working (p : Served) : Bool := p.started && p.request.jobRunning

/-- The job is in the queue of the executor. -/
def queued (p : Served) : Bool := !p.started && p.request.jobRunning

def slots (p : Served) : ℕ := p.call.elim 0 OllamaCall.slots

/-- Ollama generates for the job. -/
def isGenerating (p : Served) : Bool := p.call.any OllamaCall.isGenerating

/-- The job waits for a generation slot. -/
def waitsForSlot (p : Served) : Bool := p.call.any fun c => c.phase = .waiting

end Served

/-- The free permits and slots, and the requests so far. -/
structure Serving where
  permits : ℕ
  slots : ℕ
  served : List Served
  deriving DecidableEq

inductive ServingEvent where
  | arrive (kind : RequestKind)
  | request (i : ℕ) (s : RequestStep)
  | startJob (i : ℕ)
  | call (i : ℕ) (kind : CallKind)
  | callStep (i : ℕ) (s : CallStep)
  deriving DecidableEq

namespace Serving

/-- Both semaphores start at the same limit. -/
def start (limit : ℕ) : Serving := ⟨limit, limit, []⟩

section Steps
variable (workers limit maxRetries : ℕ)

def busyWorkers (σ : Serving) : ℕ := (σ.served.map fun p => p.working.toNat).sum

/-- A job ends in its worker, and between two calls. -/
def mayStep (p : Served) : RequestStep → Bool
  | .jobEnds _ => p.working && p.betweenCalls
  | _ => true

def partyStep (σ : Serving) (i : ℕ) (p : Served) : ServingEvent → Option Serving
  | .request _ s =>
      if mayStep p s then
        (p.request.step s σ.permits).map fun next =>
          ⟨next.2, σ.slots, σ.served.set i { p with request := next.1 }⟩
      else none
  | .startJob _ =>
      if p.queued && σ.busyWorkers < workers then
        some { σ with served := σ.served.set i { p with started := true } }
      else none
  | .call _ kind =>
      if p.working && p.betweenCalls then
        some { σ with served := σ.served.set i { p with call := some (.arriving kind) } }
      else none
  | .callStep _ s => do
      let c ← p.call
      let next ← c.step limit maxRetries s σ.slots
      return ⟨σ.permits, next.2, σ.served.set i { p with call := some next.1 }⟩
  | .arrive _ => none

def step (σ : Serving) (e : ServingEvent) : Option Serving :=
  match e with
  | .arrive kind => some { σ with served := σ.served ++ [⟨.arriving kind, false, none⟩] }
  | .request i _ | .startJob i | .call i _ | .callStep i _ => do
      let p ← σ.served[i]?
      partyStep workers limit maxRetries σ i p e

end Steps

section Accounts
variable {workers limit maxRetries i : ℕ} {p q : Served} {c : OllamaCall} {σ τ : Serving}
  {e : ServingEvent}

/-- A call that has not ended is made by a job that a worker has. -/
structure Sound (maxRetries : ℕ) (p : Served) : Prop where
  working : p.betweenCalls = false → p.working = true
  consistent : ∀ c, p.call = some c → c.Consistent maxRetries

/-- What is taken of both stocks adds up, and every call has its job. -/
structure Accounted (limit maxRetries : ℕ) (σ : Serving) : Prop where
  permits : σ.permits + (σ.served.map fun p => p.request.permits).sum = limit
  slots : σ.slots + (σ.served.map Served.slots).sum = limit
  sound : ∀ p ∈ σ.served, Sound maxRetries p

theorem Accounted.set {permits slots : ℕ} (h : Accounted limit maxRetries σ)
    (hp : σ.served[i]? = some p)
    (hpermits : permits + q.request.permits = σ.permits + p.request.permits)
    (hslots : slots + q.slots = σ.slots + p.slots) (hq : Sound maxRetries q) :
    Accounted limit maxRetries ⟨permits, slots, σ.served.set i q⟩ where
  permits := by
    have hsum := Shared.sum_map_set (fun p => p.request.permits) q hp
    have htotal := h.permits
    simp only at hsum ⊢
    omega
  slots := by
    have hsum := Shared.sum_map_set Served.slots q hp
    have htotal := h.slots
    simp only
    omega
  sound := by
    intro x hx
    obtain hx | rfl := List.mem_or_eq_of_mem_set hx
    · exact h.sound x hx
    · exact hq

/-- A job only stops running where it ends. -/
theorem jobRunning_step {r : RagRequest} {s : RequestStep} {free : ℕ} {next : RagRequest × ℕ}
    (h : r.step s free = some next) (hs : ∀ raised, s ≠ .jobEnds raised)
    (hrunning : r.jobRunning = true) : next.1.jobRunning = true := by
  obtain ⟨kind, phase⟩ := r
  cases phase with
  | submitted job outcome =>
      cases job with
      | running =>
          have hfinish : ∀ f : JobPhase → Option Outcome,
              RagRequest.finish ⟨kind, .submitted .running outcome⟩ f free = some next →
                next.1.jobRunning = true := by
            intro f hf
            unfold RagRequest.finish at hf
            split at hf
            · next hphase =>
                obtain ⟨o, -, rfl⟩ := Option.map_eq_some_iff.mp hf
                cases hphase
                rfl
            · cases hf
          cases s with
          | jobEnds raised => exact absurd rfl (hs raised)
          | acquire | waitTimesOut | checkRemaining | submit => cases h
          | result => exact hfinish _ (Option.ite_none_right_eq_some.mp h).2
          | awaitTimesOut => exact hfinish _ (Option.ite_none_right_eq_some.mp h).2
          | streamEnds => exact hfinish _ (Option.ite_none_right_eq_some.mp h).2
          | disconnect => exact hfinish _ h
      | ended raised => cases hrunning
  | waiting | acquired | submitting | rejected => cases hrunning

/-- A call that has ended makes no step but to be cancelled. -/
theorem step_of_ended {s : CallStep} {free : ℕ} {next : OllamaCall × ℕ} {outcome : CallOutcome}
    (hc : c.phase = .ended outcome) (h : c.step limit maxRetries s free = some next) :
    next.1.phase = .ended outcome := by
  cases s with
  | cancel =>
      obtain ⟨-, hnext⟩ := Option.ite_none_left_eq_some.mp h
      cases hnext
      exact hc
  | _ => simp [OllamaCall.step, hc] at h

theorem betweenCalls_eq_false_iff :
    p.betweenCalls = false ↔ ∃ c, p.call = some c ∧ ∀ outcome, c.phase ≠ .ended outcome := by
  obtain ⟨request, started, call⟩ := p
  cases call with
  | none => simp [Served.betweenCalls]
  | some c =>
      obtain ⟨kind, phase, replies, cancelled⟩ := c
      cases phase <;> simp [Served.betweenCalls]

theorem slots_of_betweenCalls (h : p.betweenCalls = true) : p.slots = 0 := by
  obtain ⟨request, started, call⟩ := p
  cases call with
  | none => rfl
  | some c =>
      obtain ⟨kind, phase, replies, cancelled⟩ := c
      cases phase with
      | ended outcome => rfl
      | _ => cases h

/-- A slot that is taken or waited for is that of a worker. -/
theorem slots_le_working (h : Sound maxRetries p) :
    p.slots + p.waitsForSlot.toNat ≤ p.working.toNat := by
  cases hbetween : p.betweenCalls with
  | true =>
      have hnone : p.waitsForSlot = false := by
        obtain ⟨request, started, call⟩ := p
        cases call with
        | none => rfl
        | some c =>
            obtain ⟨kind, phase, replies, cancelled⟩ := c
            cases phase with
            | ended outcome => rfl
            | _ => cases hbetween
      rw [slots_of_betweenCalls hbetween, hnone]
      exact Nat.zero_le _
  | false =>
      obtain ⟨c, hc, -⟩ := betweenCalls_eq_false_iff.mp hbetween
      rw [h.working hbetween, Served.slots, Served.waitsForSlot, hc]
      by_cases hphase : c.phase = .waiting
      · simp [OllamaCall.slots, OllamaCall.holdsSlot, hphase]
      · simpa [hphase, OllamaCall.slots] using Bool.toNat_le c.holdsSlot

theorem working_add_queued_le : p.working.toNat + p.queued.toNat ≤ p.request.permits := by
  simp only [Served.working, Served.queued, RagRequest.permits]
  cases p.started <;> cases p.request.jobRunning <;> simp

theorem slots_le_permits (h : Sound maxRetries p) :
    p.slots + p.waitsForSlot.toNat ≤ p.request.permits :=
  calc p.slots + p.waitsForSlot.toNat
    _ ≤ p.working.toNat := slots_le_working h
    _ ≤ p.working.toNat + p.queued.toNat := Nat.le_add_right _ _
    _ ≤ p.request.permits := working_add_queued_le

theorem accounted_step (h : Accounted limit maxRetries σ)
    (hstep : step workers limit maxRetries σ e = some τ) : Accounted limit maxRetries τ := by
  cases e with
  | arrive kind =>
      cases hstep
      refine ⟨?_, ?_, ?_⟩
      · simpa [RagRequest.permits, RagRequest.arriving, RagRequest.holdsPermit,
          RagRequest.jobRunning] using h.permits
      · simpa [Served.slots] using h.slots
      · intro p hp
        obtain hp | hp := List.mem_append.mp hp
        · exact h.sound p hp
        · rw [List.mem_singleton.mp hp]
          refine ⟨fun hbetween => ?_, fun c hc => ?_⟩
          · cases hbetween
          · cases hc
  | request i s =>
      obtain ⟨p, hp, hstep⟩ := Option.bind_eq_some_iff.mp hstep
      obtain ⟨hmay, hstep⟩ := Option.ite_none_right_eq_some.mp hstep
      obtain ⟨next, hnext, rfl⟩ := Option.map_eq_some_iff.mp hstep
      have hsound := h.sound p (List.mem_of_getElem? hp)
      refine h.set hp (permits_step hnext) rfl ⟨fun hbetween => ?_, hsound.consistent⟩
      have hworking := hsound.working hbetween
      obtain ⟨hstarted, hrunning⟩ := Bool.and_eq_true_iff.mp hworking
      refine Bool.and_eq_true_iff.mpr ⟨hstarted, jobRunning_step hnext ?_ hrunning⟩
      rintro raised rfl
      obtain ⟨-, hended⟩ := Bool.and_eq_true_iff.mp hmay
      exact absurd hended (Bool.not_eq_true _ |>.mpr hbetween)
  | startJob i =>
      obtain ⟨p, hp, hstep⟩ := Option.bind_eq_some_iff.mp hstep
      obtain ⟨hqueued, hstep⟩ := Option.ite_none_right_eq_some.mp hstep
      cases hstep
      have hsound := h.sound p (List.mem_of_getElem? hp)
      refine h.set hp rfl rfl ⟨fun hbetween => ?_, hsound.consistent⟩
      obtain ⟨-, hrunning⟩ := Bool.and_eq_true_iff.mp (hsound.working hbetween)
      exact hrunning
  | call i kind =>
      obtain ⟨p, hp, hstep⟩ := Option.bind_eq_some_iff.mp hstep
      obtain ⟨hmay, hstep⟩ := Option.ite_none_right_eq_some.mp hstep
      cases hstep
      obtain ⟨hworking, hbetween⟩ := Bool.and_eq_true_iff.mp hmay
      refine h.set hp rfl ?_ ⟨fun _ => hworking, ?_⟩
      · have hnone : (OllamaCall.arriving kind).slots = 0 := by cases kind <;> rfl
        rw [slots_of_betweenCalls hbetween]
        exact congrArg (σ.slots + ·) hnone
      · intro c hc
        cases hc
        exact OllamaCall.consistent_arriving kind
  | callStep i s =>
      obtain ⟨p, hp, hstep⟩ := Option.bind_eq_some_iff.mp hstep
      obtain ⟨c, hc, hstep⟩ := Option.bind_eq_some_iff.mp hstep
      obtain ⟨next, hnext, hstep⟩ := Option.bind_eq_some_iff.mp hstep
      cases hstep
      have hsound := h.sound p (List.mem_of_getElem? hp)
      have hconsistent := hsound.consistent c hc
      have hroom : σ.slots + c.slots ≤ limit := by
        have htotal : Shared.total Served.slots ⟨σ.slots, σ.served⟩ = limit := h.slots
        have hle : σ.slots + p.slots ≤ Shared.total Served.slots ⟨σ.slots, σ.served⟩ :=
          Shared.free_add_held_le (σ := ⟨σ.slots, σ.served⟩) hp
        rw [htotal] at hle
        simpa [Served.slots, hc] using hle
      have hkind : c.phase = .waiting → c.kind ≠ .embed := by
        intro hphase
        rw [OllamaCall.Consistent, hphase] at hconsistent
        exact hconsistent.1
      refine h.set hp rfl ?_ ⟨fun hbetween => ?_, ?_⟩
      · simpa [Served.slots, hc] using OllamaCall.slots_step hkind hroom hnext
      · apply hsound.working
        rw [betweenCalls_eq_false_iff] at hbetween ⊢
        obtain ⟨c', hc', hrunning⟩ := hbetween
        cases hc'
        exact ⟨c, hc, fun outcome hended => hrunning outcome (step_of_ended hended hnext)⟩
      · rintro c' hc'
        cases hc'
        exact OllamaCall.consistent_step hroom hconsistent hnext

/-- What is admitted waits for nothing more. In every run of any requests, workers and calls,
under settings that pass their check, a job in the queue of the executor finds a worker, a call
that waits for a generation slot finds one, and no more generations than the limit are with
Ollama at once. -/
theorem admitted_not_queued {events : List ServingEvent}
    (hsettings : validateConcurrencySettings workers limit = .ok ())
    (h : run (step workers limit maxRetries) (start limit) events = some σ) :
    (∀ i p, σ.served[i]? = some p → p.queued = true →
      (step workers limit maxRetries σ (.startJob i)).isSome = true) ∧
    (∀ i p, σ.served[i]? = some p → p.waitsForSlot = true →
      (step workers limit maxRetries σ (.callStep i .acquire)).isSome = true) ∧
    (σ.served.map fun p => p.isGenerating.toNat).sum ≤ limit := by
  have hworkers : limit ≤ workers := by
    unfold validateConcurrencySettings at hsettings
    split_ifs at hsettings with hless
    exact_mod_cast not_lt.mp hless
  have hσ : Accounted limit maxRetries σ :=
    run_invariant (fun _ _ _ hi hstep => accounted_step hi hstep) ⟨rfl, rfl, by simp [start]⟩ h
  have hpermits : (σ.served.map fun p => p.request.permits).sum ≤ limit := by
    rw [← hσ.permits]
    exact Nat.le_add_left _ _
  refine ⟨fun i p hp hqueued => ?_, fun i p hp hwaits => ?_, ?_⟩
  · have hbusy : σ.busyWorkers < workers := by
      refine lt_of_lt_of_le (List.sum_lt_sum _ _ (fun q _ => ?_) ⟨p, List.mem_of_getElem? hp, ?_⟩)
        (hpermits.trans hworkers)
      · exact (Nat.le_add_right _ _).trans working_add_queued_le
      · have hle := working_add_queued_le (p := p)
        rw [hqueued] at hle
        exact hle
    simp [step, hp, partyStep, hqueued, hbusy]
  · have hsound := hσ.sound p (List.mem_of_getElem? hp)
    have hslots : (σ.served.map Served.slots).sum < limit := by
      refine lt_of_lt_of_le (List.sum_lt_sum _ _ (fun q hq => ?_) ⟨p, List.mem_of_getElem? hp, ?_⟩)
        hpermits
      · exact (Nat.le_add_right _ _).trans (slots_le_permits (hσ.sound q hq))
      · have hle := slots_le_permits hsound
        rw [hwaits] at hle
        exact hle
    have hfree : 0 < σ.slots := by
      have htotal := hσ.slots
      omega
    obtain ⟨c, hc, hphase⟩ := (Option.any_eq_true ..).mp hwaits
    simp [step, hp, partyStep, hc, OllamaCall.step, of_decide_eq_true hphase, hfree]
  · refine (List.sum_le_sum fun p _ => ?_).trans (hσ.slots ▸ Nat.le_add_left _ _)
    cases hgenerating : p.isGenerating with
    | false => exact Nat.zero_le _
    | true =>
        obtain ⟨c, hc, hcall⟩ := (Option.any_eq_true ..).mp hgenerating
        rw [Served.slots, hc, Option.elim_some, OllamaCall.slots,
          OllamaCall.isGenerating_le_holdsSlot hcall]

/-- Two workers and one slot: the second request comes in when the job of the first, which was
given up, is over, and its job finds a worker and a slot. -/
def twoJobs : List ServingEvent :=
  [.arrive .plain, .arrive .streaming, .request 0 .acquire, .request 0 (.checkRemaining false),
    .request 0 (.submit false), .startJob 0, .call 0 .embed, .callStep 0 .check, .callStep 0 .post,
    .callStep 0 (.reply (.response 200)), .call 0 .generate, .callStep 0 .acquire,
    .request 0 .awaitTimesOut, .callStep 0 .check, .callStep 0 .post,
    .callStep 0 (.reply (.response 200)), .request 0 (.jobEnds false), .request 1 .acquire,
    .request 1 (.checkRemaining false), .request 1 (.submit false), .startJob 1, .call 1 .stream]

theorem admitted_not_queued_twoJobs : ∃ σ, run (step 2 1 2) (start 1) twoJobs = some σ ∧
    (step 2 1 2 σ (.callStep 1 .acquire)).isSome = true := by
  have hrun : (run (step 2 1 2) (start 1) twoJobs).any (fun σ =>
      σ.served[1]?.any Served.waitsForSlot) = true := by decide
  obtain ⟨σ, hσ, hwaits⟩ := (Option.any_eq_true ..).mp hrun
  obtain ⟨p, hp, hwaits⟩ := (Option.any_eq_true ..).mp hwaits
  have hsettings : validateConcurrencySettings 2 1 = .ok () := rfl
  exact ⟨σ, hσ, (admitted_not_queued (by exact_mod_cast hsettings) hσ).2.1 1 p hp hwaits⟩

end Accounts

end Serving

end LocalGraphRag.Web
