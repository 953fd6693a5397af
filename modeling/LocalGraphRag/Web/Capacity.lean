import LocalGraphRag.Systems.Runs
import LocalGraphRag.Systems.Shared

/-!
# Capacity of the RAG pipeline

A request acquires a permit of the semaphore and submits a job, which gives the permit
back when it ends; the request may have ended long before. Until it has submitted the
job, the request gives the permit back itself on every way out.

## Implementation notes

`asyncio.Semaphore` is its count, which a `release` raises whatever its value was. An
acquire that times out or is cancelled holds no permit, and the done callback of a future
runs once, when its job ends. Requests are steps of one event loop; nothing else is
assumed of their order.
-/

namespace LocalGraphRag.Web

open LocalGraphRag.Systems

/-- Who asks: `run_rag_with_timeout`, or `rag_stream_response`. -/
inductive RequestKind where
  | plain
  | streaming
  deriving DecidableEq

/-- How a request ends. -/
inductive Outcome where
  | answered
  | streamed
  | noCapacity
  | generationTimedOut
  | pipelineError
  | submissionFailed
  | disconnected
  deriving DecidableEq

/-- A job of the executor. -/
inductive JobPhase where
  | running
  | ended (raised : Bool)
  deriving DecidableEq

/-- Where a request stands. Once its job is submitted, the job goes on by itself, and the
request has an outcome or still awaits one. -/
inductive RequestPhase where
  | waiting
  | acquired
  | submitting
  | rejected (outcome : Outcome)
  | submitted (job : JobPhase) (outcome : Option Outcome)
  deriving DecidableEq

structure RagRequest where
  kind : RequestKind
  phase : RequestPhase
  deriving DecidableEq

inductive RequestStep where
  | acquire
  | waitTimesOut
  | checkRemaining (expired : Bool)
  | submit (raises : Bool)
  | jobEnds (raised : Bool)
  | result
  | awaitTimesOut
  | streamEnds
  | disconnect
  deriving DecidableEq

namespace RagRequest

def arriving (kind : RequestKind) : RagRequest := ⟨kind, .waiting⟩

def goTo (r : RagRequest) (phase : RequestPhase) : RagRequest := { r with phase }

/-- `_wait_for_capacity`, where the semaphore has a permit. -/
def acquire (r : RagRequest) (free : Nat) : Option (RagRequest × Nat) :=
  if r.phase = .waiting ∧ 0 < free then some (r.goTo .acquired, free - 1) else none

/-- The check of the remaining time, which `_acquire_and_submit` and
`_start_stream_worker` both make. -/
def checkRemaining (r : RagRequest) (expired : Bool) (free : Nat) :
    Option (RagRequest × Nat) :=
  if r.phase = .acquired then
    if expired then some (r.goTo (.rejected .noCapacity), free + 1)
    else some (r.goTo .submitting, free)
  else none

/-- `_submit_rag_job`. -/
def submitRagJob (r : RagRequest) (raises : Bool) (free : Nat) : Option (RagRequest × Nat) :=
  if r.phase = .submitting then
    if raises then some (r.goTo (.rejected .submissionFailed), free + 1)
    else some (r.goTo (.submitted .running none), free)
  else none

/-- The done callback releases the permit, whether or not anyone still awaits the job. -/
def jobEnds (r : RagRequest) (raised : Bool) (free : Nat) : Option (RagRequest × Nat) :=
  match r.phase with
  | .submitted .running outcome => some (r.goTo (.submitted (.ended raised) outcome), free + 1)
  | _ => none

/-- The end of a request whose job was submitted: the job is left as it is. -/
def finish (r : RagRequest) (outcome : JobPhase → Option Outcome) (free : Nat) :
    Option (RagRequest × Nat) :=
  match r.phase with
  | .submitted job none =>
      (outcome job).map fun outcome => (r.goTo (.submitted job (some outcome)), free)
  | _ => none

/-- What `await` on the future of a job gives. -/
def resultOf : JobPhase → Option Outcome
  | .running => none
  | .ended raised => some (if raised then .pipelineError else .answered)

def step (r : RagRequest) : RequestStep → Nat → Option (RagRequest × Nat)
  | .acquire, free => r.acquire free
  | .waitTimesOut, free =>
      if r.phase = .waiting then some (r.goTo (.rejected .noCapacity), free) else none
  | .checkRemaining expired, free => r.checkRemaining expired free
  | .submit raises, free => r.submitRagJob raises free
  | .jobEnds raised, free => r.jobEnds raised free
  | .result, free => if r.kind = .plain then r.finish resultOf free else none
  | .awaitTimesOut, free =>
      -- the shield keeps the job running
      if r.kind = .plain then r.finish (fun _ => some .generationTimedOut) free else none
  | .streamEnds, free =>
      if r.kind = .streaming then r.finish (fun _ => some .streamed) free else none
  | .disconnect, free =>
      -- a request can be cancelled only where it awaits something
      if r.phase = .waiting then some (r.goTo (.rejected .disconnected), free)
      else r.finish (fun _ => some .disconnected) free

/-- The request is between acquiring and submitting. -/
def holdsPermit (r : RagRequest) : Bool := r.phase = .acquired ∨ r.phase = .submitting

/-- Its job is submitted and has not finished. -/
def jobRunning (r : RagRequest) : Bool :=
  match r.phase with
  | .submitted .running _ => true
  | _ => false

/-- The permits that a request and its job hold. -/
def permits (r : RagRequest) : Nat := r.holdsPermit.toNat + r.jobRunning.toNat

end RagRequest

/-- The semaphore and the requests so far. -/
abbrev Capacity := Shared RagRequest

inductive CapacityEvent where
  | arrive (kind : RequestKind)
  | request (i : Nat) (s : RequestStep)
  deriving DecidableEq

namespace Capacity

/-- `init_rag_executor`. -/
def start (concurrencyLimit : Nat) : Capacity := ⟨concurrencyLimit, []⟩

def step (σ : Capacity) : CapacityEvent → Option Capacity
  | .arrive kind => some (σ.arrive (.arriving kind))
  | .request i s => σ.act RagRequest.step i s

end Capacity

section Conservation
variable {r : RagRequest} {s : RequestStep} {free : Nat} {next : RagRequest × Nat}

@[simp] theorem permits_waiting : (r.goTo .waiting).permits = 0 := by
  simp [RagRequest.permits, RagRequest.holdsPermit, RagRequest.jobRunning, RagRequest.goTo]

@[simp] theorem permits_acquired : (r.goTo .acquired).permits = 1 := by
  simp [RagRequest.permits, RagRequest.holdsPermit, RagRequest.jobRunning, RagRequest.goTo]

@[simp] theorem permits_submitting : (r.goTo .submitting).permits = 1 := by
  simp [RagRequest.permits, RagRequest.holdsPermit, RagRequest.jobRunning, RagRequest.goTo]

@[simp] theorem permits_rejected (outcome : Outcome) :
    (r.goTo (.rejected outcome)).permits = 0 := by
  simp [RagRequest.permits, RagRequest.holdsPermit, RagRequest.jobRunning, RagRequest.goTo]

@[simp] theorem permits_running (outcome : Option Outcome) :
    (r.goTo (.submitted .running outcome)).permits = 1 := by
  simp [RagRequest.permits, RagRequest.holdsPermit, RagRequest.jobRunning, RagRequest.goTo]

@[simp] theorem permits_ended (raised : Bool) (outcome : Option Outcome) :
    (r.goTo (.submitted (.ended raised) outcome)).permits = 0 := by
  simp [RagRequest.permits, RagRequest.holdsPermit, RagRequest.jobRunning, RagRequest.goTo]

theorem permits_of_phase {phase : RequestPhase} (h : r.phase = phase) :
    r.permits = (r.goTo phase).permits := by
  rw [RagRequest.goTo, ← h]

/-- However a request ends, its job keeps its permit. -/
theorem permits_finish {outcome : JobPhase → Option Outcome}
    (h : r.finish outcome free = some next) : next.2 + next.1.permits = free + r.permits := by
  unfold RagRequest.finish at h
  split at h
  · rename_i job hphase
    obtain ⟨o, -, rfl⟩ := Option.map_eq_some_iff.mp h
    rw [permits_of_phase hphase]
    cases job <;> simp
  · cases h

/-- A request takes from the semaphore what it and its job hold, and gives it back. -/
theorem permits_step (h : r.step s free = some next) :
    next.2 + next.1.permits = free + r.permits := by
  cases s with
  | acquire =>
      obtain ⟨⟨hphase, hfree⟩, hnext⟩ := Option.ite_none_right_eq_some.mp h
      cases hnext
      rw [permits_of_phase hphase, permits_waiting, permits_acquired]
      omega
  | waitTimesOut =>
      obtain ⟨hphase, hnext⟩ := Option.ite_none_right_eq_some.mp h
      cases hnext
      rw [permits_of_phase hphase, permits_waiting, permits_rejected]
  | checkRemaining expired =>
      obtain ⟨hphase, hnext⟩ := Option.ite_none_right_eq_some.mp h
      rw [permits_of_phase hphase, permits_acquired]
      cases expired with
      | true =>
          cases hnext
          rw [permits_rejected]
      | false =>
          cases hnext
          rw [permits_submitting]
  | submit raises =>
      obtain ⟨hphase, hnext⟩ := Option.ite_none_right_eq_some.mp h
      rw [permits_of_phase hphase, permits_submitting]
      cases raises with
      | true =>
          cases hnext
          rw [permits_rejected]
      | false =>
          cases hnext
          rw [permits_running]
  | jobEnds raised =>
      simp only [RagRequest.step, RagRequest.jobEnds] at h
      split at h
      · rename_i outcome hphase
        cases h
        rw [permits_of_phase hphase, permits_running, permits_ended]
      · cases h
  | result => exact permits_finish (Option.ite_none_right_eq_some.mp h).2
  | awaitTimesOut => exact permits_finish (Option.ite_none_right_eq_some.mp h).2
  | streamEnds => exact permits_finish (Option.ite_none_right_eq_some.mp h).2
  | disconnect =>
      simp only [RagRequest.step] at h
      split_ifs at h with hphase
      · cases h
        rw [permits_of_phase hphase, permits_waiting, permits_rejected]
      · exact permits_finish h

end Conservation

namespace Capacity

variable {σ σ' : Capacity} {event : CapacityEvent} {concurrencyLimit : Nat}

theorem total_step (h : σ.step event = some σ') :
    σ'.total RagRequest.permits = σ.total RagRequest.permits := by
  cases event with
  | arrive kind =>
      cases h
      exact Shared.total_arrive (permits_waiting (r := ⟨kind, .waiting⟩))
  | request i s => exact Shared.total_act (fun _ _ hstep => permits_step hstep) h

/-- The permits of some requests are those of the ones that hold one, and of the jobs. -/
theorem sum_permits (requests : List RagRequest) :
    (requests.map RagRequest.permits).sum =
      requests.countP RagRequest.holdsPermit + requests.countP RagRequest.jobRunning := by
  induction requests with
  | nil => rfl
  | cons r requests ih =>
      simp only [List.map_cons, List.sum_cons, List.countP_cons, ih, RagRequest.permits]
      cases r.holdsPermit <;> cases r.jobRunning <;> simp <;> omega

/-- The free permits, the requests that hold one and the jobs that are submitted and not
finished always add up to the limit. -/
theorem permits_conserved {events : List CapacityEvent}
    (h : run step (start concurrencyLimit) events = some σ) :
    σ.free + σ.parties.countP RagRequest.holdsPermit +
      σ.parties.countP RagRequest.jobRunning = concurrencyLimit := by
  have htotal : σ.total RagRequest.permits = concurrencyLimit :=
    run_invariant (I := fun σ => σ.total RagRequest.permits = concurrencyLimit)
      (fun _ _ _ hi hstep => (total_step hstep).trans hi) rfl h
  rw [Shared.total, sum_permits] at htotal
  omega

/-- Two requests on one permit: the first is given up while its job runs on. -/
def abandonedJob : List CapacityEvent :=
  [.arrive .plain, .arrive .streaming, .request 0 .acquire, .request 0 (.checkRemaining false),
    .request 0 (.submit false), .request 0 .awaitTimesOut, .request 0 (.jobEnds false),
    .request 1 .acquire, .request 1 (.checkRemaining true)]

theorem permits_conserved_sample : ∃ σ,
    run step (start 1) abandonedJob = some σ ∧
      σ.free + σ.parties.countP RagRequest.holdsPermit +
        σ.parties.countP RagRequest.jobRunning = 1 := by
  have hrun : (run step (start 1) abandonedJob).isSome = true := by decide
  obtain ⟨σ, hσ⟩ := Option.isSome_iff_exists.mp hrun
  exact ⟨σ, hσ, permits_conserved hσ⟩

end Capacity

end LocalGraphRag.Web
