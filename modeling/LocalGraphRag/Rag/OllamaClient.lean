import LocalGraphRag.Systems.Runs
import LocalGraphRag.Systems.Shared
import Mathlib.Order.Nat

/-!
# Calls of Ollama

A generation waits for a slot of a bounded semaphore and has it until it ends, however that
is. A request is posted again after some replies, a streamed one never, and a call that is
cancelled stops before its next request.

## Implementation notes

Calls are steps of their threads in any order. What a request comes back with is a status or
an exception, which a call takes down. A wait for a slot times out at any moment. The bounded
semaphore raises where its count is the limit already.
-/

namespace LocalGraphRag.Rag

open LocalGraphRag.Systems

/-- `generate`, `stream_generate`, or a request of `embed_batch`, which takes no slot. -/
inductive CallKind where
  | generate
  | stream
  | embed
  deriving DecidableEq

/-- What a request comes back with. -/
inductive Reply where
  | response (status : ℕ)
  | readTimeout
  | requestException
  | otherException
  deriving DecidableEq

/-- How a call ends. -/
inductive CallOutcome where
  | returned
  | streamEnded
  | cancelled
  | noCapacity
  | failed (status : ℕ)
  | timedOut
  | failedAfterRetries
  | raised
  | overReleased
  deriving DecidableEq

/-- Where a call stands. `attempt` is the top of a round of `post_with_retry`, and `checked`
the point between its check and its request. -/
inductive CallPhase where
  | waiting
  | attempt (n : ℕ)
  | checked (n : ℕ)
  | inFlight (n : ℕ)
  | streaming
  | ended (outcome : CallOutcome)
  deriving DecidableEq

structure OllamaCall where
  kind : CallKind
  phase : CallPhase
  replies : List Reply
  cancelled : Bool
  deriving DecidableEq

inductive CallStep where
  | acquire
  | waitTimesOut
  | waitCancelled
  | check
  | post
  | reply (r : Reply)
  | streamEnds
  | cancel
  deriving DecidableEq

namespace OllamaCall

/-- An embedding request starts with its first round. -/
def arriving (kind : CallKind) : OllamaCall :=
  ⟨kind, if kind = .embed then .attempt 0 else .waiting, [], false⟩

def goTo (c : OllamaCall) (phase : CallPhase) : OllamaCall := { c with phase }

/-- The call is inside its slot. -/
def holdsSlot (c : OllamaCall) : Bool :=
  match c.phase with
  | .waiting | .ended _ => false
  | _ => c.kind != .embed

/-- The request of a generation is with Ollama. -/
def isGenerating (c : OllamaCall) : Bool :=
  match c.phase with
  | .inFlight _ | .streaming => c.kind != .embed
  | _ => false

/-- The requests that a call has made. -/
def posts (c : OllamaCall) : ℕ :=
  c.replies.length + (match c.phase with
    | .inFlight _ => 1
    | _ => 0)

section Steps
variable (limit maxRetries : ℕ) (c : OllamaCall)

/-- The end of a call, which gives back its slot if it has one. -/
def leave (outcome : CallOutcome) (free : ℕ) : OllamaCall × ℕ :=
  if c.holdsSlot then
    if free < limit then (c.goTo (.ended outcome), free + 1)
    else (c.goTo (.ended .overReleased), free)
  else (c.goTo (.ended outcome), free)

/-- What round `n` of `post_with_retry` makes of a reply; without an outcome there is a next
round. -/
def verdict (n : ℕ) : Reply → Option CallOutcome
  | .response status =>
      if 500 ≤ status ∧ n < maxRetries then none
      else if status < 400 then some .returned
      else some (.failed status)
  | .readTimeout => some .timedOut
  | .requestException => if n < maxRetries then none else some .failedAfterRetries
  | .otherException => some .raised

/-- What `stream_generate` makes of one; without an outcome it reads lines. -/
def streamVerdict : Reply → Option CallOutcome
  | .response status => if status < 400 then none else some (.failed status)
  | _ => some .raised

def answered (n : ℕ) (r : Reply) (free : ℕ) : OllamaCall × ℕ :=
  let c := { c with replies := c.replies ++ [r] }
  match c.kind with
  | .stream =>
      match streamVerdict r with
      | none => (c.goTo .streaming, free)
      | some outcome => c.leave limit outcome free
  | _ =>
      match verdict maxRetries n r with
      | none => (c.goTo (.attempt (n + 1)), free)
      | some outcome => c.leave limit outcome free

def step : CallStep → ℕ → Option (OllamaCall × ℕ)
  | .acquire, free =>
      if c.phase = .waiting ∧ 0 < free then
        -- a streamed request is made without a check
        some (c.goTo (if c.kind = .stream then .checked 0 else .attempt 0), free - 1)
      else none
  | .waitTimesOut, free =>
      if c.phase = .waiting then some (c.leave limit .noCapacity free) else none
  | .waitCancelled, free =>
      if c.phase = .waiting ∧ c.cancelled = true then some (c.leave limit .cancelled free) else none
  | .check, free =>
      match c.phase with
      | .attempt n =>
          if c.cancelled then some (c.leave limit .cancelled free)
          else some (c.goTo (.checked n), free)
      | _ => none
  | .post, free =>
      match c.phase with
      | .checked n => some (c.goTo (.inFlight n), free)
      | _ => none
  | .reply r, free =>
      match c.phase with
      | .inFlight n => some (c.answered limit maxRetries n r free)
      | _ => none
  | .streamEnds, free =>
      if c.phase = .streaming then some (c.leave limit .streamEnded free) else none
  | .cancel, free => if c.kind = .embed then none else some ({ c with cancelled := true }, free)

end Steps

end OllamaCall

/-- The semaphore and the calls so far. -/
abbrev OllamaClient := Shared OllamaCall

inductive ClientEvent where
  | arrive (kind : CallKind)
  | call (i : ℕ) (s : CallStep)
  deriving DecidableEq

namespace OllamaClient

def start (limit : ℕ) : OllamaClient := ⟨limit, []⟩

def step (limit maxRetries : ℕ) (σ : OllamaClient) : ClientEvent → Option OllamaClient
  | .arrive kind => some (σ.arrive (.arriving kind))
  | .call i s => σ.act (OllamaCall.step limit maxRetries) i s

end OllamaClient

namespace OllamaCall
variable {limit maxRetries n free : ℕ} {c : OllamaCall} {s : CallStep} {next : OllamaCall × ℕ}

section Slots

/-- The slots that a call has. -/
def slots (c : OllamaCall) : ℕ := c.holdsSlot.toNat

theorem slots_ended (outcome : CallOutcome) : (c.goTo (.ended outcome)).slots = 0 := rfl

/-- A call that leaves gives back what it has, if the semaphore has room for it. -/
theorem slots_leave (outcome : CallOutcome) (hroom : free + c.slots ≤ limit) :
    (c.leave limit outcome free).2 + (c.leave limit outcome free).1.slots = free + c.slots := by
  rw [leave]
  by_cases hslot : c.holdsSlot = true
  · have hone : c.slots = 1 := by rw [slots, hslot, Bool.toNat_true]
    rw [if_pos hslot, if_pos (by omega), slots_ended, hone]
  · have hnone : c.slots = 0 := by rw [slots, Bool.not_eq_true _ |>.mp hslot, Bool.toNat_false]
    rw [if_neg hslot, slots_ended, hnone]

theorem slots_goTo_of_inside {phase : CallPhase} (h : c.holdsSlot = (c.goTo phase).holdsSlot) :
    (c.goTo phase).slots = c.slots := by rw [slots, slots, h]

theorem slots_answered (hphase : c.phase = .inFlight n) (r : Reply)
    (hroom : free + c.slots ≤ limit) :
    (c.answered limit maxRetries n r free).2 + (c.answered limit maxRetries n r free).1.slots =
      free + c.slots := by
  have hsame : ({ c with replies := c.replies ++ [r] } : OllamaCall).slots = c.slots := rfl
  rw [answered]
  dsimp only
  split
  · split
    · rw [slots_goTo_of_inside (by simp [holdsSlot, goTo, hphase]), hsame]
    · rw [slots_leave _ (by rwa [hsame]), hsame]
  · split
    · rw [slots_goTo_of_inside (by simp [holdsSlot, goTo, hphase]), hsame]
    · rw [slots_leave _ (by rwa [hsame]), hsame]

/-- A call takes from the semaphore what it has, and gives it back. -/
theorem slots_step (hkind : c.phase = .waiting → c.kind ≠ .embed) (hroom : free + c.slots ≤ limit)
    (h : c.step limit maxRetries s free = some next) :
    next.2 + next.1.slots = free + c.slots := by
  cases s with
  | acquire =>
      obtain ⟨⟨hphase, hfree⟩, hnext⟩ := Option.ite_none_right_eq_some.mp h
      cases hnext
      have hnone : c.slots = 0 := by rw [slots, holdsSlot, hphase, Bool.toNat_false]
      have hone : (c.goTo (if c.kind = .stream then .checked 0 else .attempt 0)).slots = 1 := by
        rw [slots, holdsSlot, goTo]
        split_ifs <;> simp [hkind hphase]
      rw [hone, hnone]
      omega
  | waitTimesOut =>
      obtain ⟨-, hnext⟩ := Option.ite_none_right_eq_some.mp h
      cases hnext
      exact slots_leave _ hroom
  | waitCancelled =>
      obtain ⟨-, hnext⟩ := Option.ite_none_right_eq_some.mp h
      cases hnext
      exact slots_leave _ hroom
  | check =>
      simp only [step] at h
      split at h
      · rename_i n hphase
        split_ifs at h
        · cases h
          exact slots_leave _ hroom
        · cases h
          rw [slots_goTo_of_inside (by simp [holdsSlot, goTo, hphase])]
      · cases h
  | post =>
      simp only [step] at h
      split at h
      · rename_i n hphase
        cases h
        rw [slots_goTo_of_inside (by simp [holdsSlot, goTo, hphase])]
      · cases h
  | reply r =>
      simp only [step] at h
      split at h
      · rename_i n hphase
        cases h
        exact slots_answered hphase r hroom
      · cases h
  | streamEnds =>
      obtain ⟨-, hnext⟩ := Option.ite_none_right_eq_some.mp h
      cases hnext
      exact slots_leave _ hroom
  | cancel =>
      obtain ⟨-, hnext⟩ := Option.ite_none_left_eq_some.mp h
      cases hnext
      rfl

theorem isGenerating_le_holdsSlot (h : c.isGenerating = true) : c.holdsSlot = true := by
  rw [isGenerating] at h
  rw [holdsSlot]
  split at h
  all_goals simp_all

end Slots

section Retries

/-- Every reply is one that is followed by a next round. -/
def Retried (maxRetries : ℕ) (replies : List Reply) : Prop :=
  ∀ i r, replies[i]? = some r → verdict maxRetries i r = none

/-- How a call can end with the replies that it got: the last one decides, after others that
were each followed by a next round; a streamed call has no next round. -/
inductive Ends (maxRetries : ℕ) (kind : CallKind) : List Reply → CallOutcome → Prop
  | noCapacity (hkind : kind ≠ .embed) : Ends maxRetries kind [] .noCapacity
  | cancelled {replies : List Reply} (h : Retried maxRetries replies)
      (hkind : kind = .stream → replies = []) : Ends maxRetries kind replies .cancelled
  | decided {before : List Reply} {r : Reply} {outcome : CallOutcome} (hkind : kind ≠ .stream)
      (h : Retried maxRetries before) (hlast : verdict maxRetries before.length r = some outcome) :
      Ends maxRetries kind (before ++ [r]) outcome
  | refused {r : Reply} {outcome : CallOutcome} (hkind : kind = .stream)
      (h : streamVerdict r = some outcome) : Ends maxRetries kind [r] outcome
  | streamed {r : Reply} (hkind : kind = .stream) (h : streamVerdict r = none) :
      Ends maxRetries kind [r] .streamEnded

/-- What a call has behind it at each point. -/
def Consistent (maxRetries : ℕ) (c : OllamaCall) : Prop :=
  match c.phase with
  | .waiting => c.kind ≠ .embed ∧ c.replies = []
  | .attempt n => c.kind ≠ .stream ∧ c.replies.length = n ∧ Retried maxRetries c.replies
  | .checked n | .inFlight n =>
      (c.kind = .stream → c.replies = []) ∧ c.replies.length = n ∧ Retried maxRetries c.replies
  | .streaming => c.kind = .stream ∧ ∃ r, c.replies = [r] ∧ streamVerdict r = none
  | .ended outcome => Ends maxRetries c.kind c.replies outcome

theorem lt_of_verdict_eq_none {r : Reply} (h : verdict maxRetries n r = none) : n < maxRetries := by
  cases r with
  | response status =>
      rw [verdict] at h
      split_ifs at h with hretry
      exact hretry.2
  | requestException =>
      rw [verdict] at h
      split_ifs at h with hretry
      exact hretry
  | readTimeout => cases h
  | otherException => cases h

theorem Retried.length_le {replies : List Reply} (h : Retried maxRetries replies) :
    replies.length ≤ maxRetries := by
  by_contra hlt
  have hlast : maxRetries < replies.length := not_le.mp hlt
  have hverdict := h maxRetries _ (List.getElem?_eq_getElem hlast)
  exact absurd (lt_of_verdict_eq_none hverdict) (lt_irrefl _)

theorem Retried.concat {replies : List Reply} (h : Retried maxRetries replies) {r : Reply}
    (hr : verdict maxRetries replies.length r = none) : Retried maxRetries (replies ++ [r]) := by
  intro i r' hi
  obtain hlt | heq | hgt := lt_trichotomy i replies.length
  · exact h i r' (by rwa [List.getElem?_append_left hlt] at hi)
  · subst heq
    rw [List.getElem?_concat_length] at hi
    cases hi
    exact hr
  · rw [List.getElem?_eq_none (by simp; omega)] at hi
    cases hi

theorem consistent_arriving (kind : CallKind) : Consistent maxRetries (arriving kind) := by
  cases kind with
  | embed => exact ⟨by simp [arriving], rfl, by simp [arriving, Retried]⟩
  | generate => exact ⟨by simp [arriving], rfl⟩
  | stream => exact ⟨by simp [arriving], rfl⟩

/-- A call that leaves ends with its outcome, as the semaphore has room. -/
theorem leave_phase (outcome : CallOutcome) (hroom : free + c.slots ≤ limit) :
    (c.leave limit outcome free).1 = c.goTo (.ended outcome) := by
  rw [leave]
  by_cases hslot : c.holdsSlot = true
  · have hone : c.slots = 1 := by rw [slots, hslot, Bool.toNat_true]
    rw [if_pos hslot, if_pos (by omega)]
  · rw [if_neg hslot]

theorem consistent_answered (hphase : c.phase = .inFlight n) (r : Reply)
    (hroom : free + c.slots ≤ limit) (hc : Consistent maxRetries c) :
    Consistent maxRetries (c.answered limit maxRetries n r free).1 := by
  rw [Consistent, hphase] at hc
  obtain ⟨hstream, hlength, hretried⟩ := hc
  rw [answered]
  dsimp only
  split
  · rename_i hkind
    have hnil := hstream hkind
    split
    · rename_i hverdict
      exact ⟨hkind, r, by simp [goTo, hnil], hverdict⟩
    · rename_i outcome hverdict
      rw [leave_phase (c := { c with replies := c.replies ++ [r] }) _ hroom]
      change Ends maxRetries c.kind (c.replies ++ [r]) outcome
      rw [hnil]
      exact .refused hkind hverdict
  · rename_i hkind
    split
    · rename_i hverdict
      refine ⟨hkind, by simp [goTo, hlength], hretried.concat ?_⟩
      rwa [hlength]
    · rename_i outcome hverdict
      rw [leave_phase (c := { c with replies := c.replies ++ [r] }) _ hroom]
      apply Ends.decided hkind hretried
      rwa [hlength]

theorem consistent_step (hroom : free + c.slots ≤ limit) (hc : Consistent maxRetries c)
    (h : c.step limit maxRetries s free = some next) : Consistent maxRetries next.1 := by
  cases s with
  | acquire =>
      obtain ⟨⟨hphase, -⟩, hnext⟩ := Option.ite_none_right_eq_some.mp h
      cases hnext
      rw [Consistent, hphase] at hc
      by_cases hkind : c.kind = .stream
      · rw [if_pos hkind]
        refine ⟨fun _ => hc.2, by simp [goTo, hc.2], by simp [goTo, hc.2, Retried]⟩
      · rw [if_neg hkind]
        refine ⟨hkind, by simp [goTo, hc.2], by simp [goTo, hc.2, Retried]⟩
  | waitTimesOut =>
      obtain ⟨hphase, hnext⟩ := Option.ite_none_right_eq_some.mp h
      cases hnext
      rw [Consistent, hphase] at hc
      rw [leave_phase _ hroom]
      change Ends maxRetries c.kind c.replies .noCapacity
      rw [hc.2]
      exact .noCapacity hc.1
  | waitCancelled =>
      obtain ⟨⟨hphase, -⟩, hnext⟩ := Option.ite_none_right_eq_some.mp h
      cases hnext
      rw [Consistent, hphase] at hc
      rw [leave_phase _ hroom]
      exact Ends.cancelled (by simp [goTo, hc.2, Retried]) fun _ => hc.2
  | check =>
      simp only [step] at h
      split at h
      · rename_i n hphase
        rw [Consistent, hphase] at hc
        split_ifs at h
        · cases h
          rw [leave_phase _ hroom]
          exact Ends.cancelled hc.2.2 fun hkind => absurd hkind hc.1
        · cases h
          exact ⟨fun hkind => absurd hkind hc.1, hc.2⟩
      · cases h
  | post =>
      simp only [step] at h
      split at h
      · rename_i n hphase
        rw [Consistent, hphase] at hc
        cases h
        exact hc
      · cases h
  | reply r =>
      simp only [step] at h
      split at h
      · rename_i n hphase
        cases h
        exact consistent_answered hphase r hroom hc
      · cases h
  | streamEnds =>
      obtain ⟨hphase, hnext⟩ := Option.ite_none_right_eq_some.mp h
      cases hnext
      rw [Consistent, hphase] at hc
      obtain ⟨hkind, r, hreplies, hverdict⟩ := hc
      rw [leave_phase _ hroom]
      change Ends maxRetries c.kind c.replies .streamEnded
      rw [hreplies]
      exact .streamed hkind hverdict
  | cancel =>
      obtain ⟨-, hnext⟩ := Option.ite_none_left_eq_some.mp h
      cases hnext
      exact hc

theorem Ends.length_le {kind : CallKind} {replies : List Reply} {outcome : CallOutcome}
    (h : Ends maxRetries kind replies outcome) :
    replies.length ≤ maxRetries + 1 ∧ (kind = .stream → replies.length ≤ 1) := by
  cases h with
  | noCapacity => simp
  | cancelled h hkind =>
      refine ⟨h.length_le.trans (Nat.le_succ _), fun hstream => ?_⟩
      rw [hkind hstream]
      simp
  | decided hkind h hlast =>
      have hlength := h.length_le
      refine ⟨?_, fun hstream => absurd hstream hkind⟩
      rw [List.length_append, List.length_singleton]
      omega
  | refused => simp
  | streamed => simp

theorem Consistent.posts_le (h : Consistent maxRetries c) :
    c.posts ≤ maxRetries + 1 ∧ (c.kind = .stream → c.posts ≤ 1) := by
  rw [Consistent] at h
  rw [posts]
  split at h
  all_goals rename_i hphase
  · simp [hphase, h.2]
  · have hlength := h.2.2.length_le
    simp only [hphase]
    exact ⟨by omega, fun hkind => absurd hkind h.1⟩
  · have hlength := h.2.2.length_le
    simp only [hphase]
    refine ⟨by omega, fun hkind => ?_⟩
    simp [h.1 hkind]
  · have hlength := h.2.2.length_le
    simp only [hphase]
    refine ⟨by omega, fun hkind => ?_⟩
    simp [h.1 hkind]
  · obtain ⟨-, r, hreplies, -⟩ := h
    simp [hphase, hreplies]
  · simpa [hphase] using h.length_le

theorem Ends.ne_overReleased {kind : CallKind} {replies : List Reply} {outcome : CallOutcome}
    (h : Ends maxRetries kind replies outcome) : outcome ≠ .overReleased := by
  cases h with
  | noCapacity | cancelled | streamed => simp
  | @decided before r _ _ _ hlast =>
      rintro rfl
      cases r with
      | response status =>
          rw [verdict] at hlast
          split_ifs at hlast <;> cases hlast
      | requestException =>
          rw [verdict] at hlast
          split_ifs at hlast
          cases hlast
      | readTimeout => cases hlast
      | otherException => cases hlast
  | @refused r _ _ hverdict =>
      rintro rfl
      cases r with
      | response status =>
          rw [streamVerdict] at hverdict
          split_ifs at hverdict
          cases hverdict
      | requestException => cases hverdict
      | readTimeout => cases hverdict
      | otherException => cases hverdict

end Retries

end OllamaCall

namespace OllamaClient
open OllamaCall (slots Consistent)

variable {limit maxRetries : ℕ} {σ σ' : OllamaClient}

/-- The slots are accounted for, and so are the replies of every call. -/
structure Accounted (limit maxRetries : ℕ) (σ : OllamaClient) : Prop where
  total : σ.total slots = limit
  consistent : ∀ c ∈ σ.parties, Consistent maxRetries c

theorem accounted_step {event : ClientEvent} (hσ : Accounted limit maxRetries σ)
    (h : σ.step limit maxRetries event = some σ') : Accounted limit maxRetries σ' := by
  cases event with
  | arrive kind =>
      cases h
      refine ⟨(Shared.total_arrive ?_).trans hσ.total,
        Shared.forall_arrive hσ.consistent (OllamaCall.consistent_arriving kind)⟩
      cases kind <;> rfl
  | call i s =>
      have hroom : ∀ c, σ.parties[i]? = some c → σ.free + c.slots ≤ limit := by
        intro c hc
        rw [← hσ.total]
        exact Shared.free_add_held_le hc
      constructor
      · rw [← hσ.total]
        apply Shared.total_act_of_getElem? _ h
        intro c next hc hnext
        refine OllamaCall.slots_step (fun hphase => ?_) (hroom c hc) hnext
        have hconsistent := hσ.consistent c (List.mem_of_getElem? hc)
        rw [Consistent, hphase] at hconsistent
        exact hconsistent.1
      · apply Shared.forall_act hσ.consistent _ h
        intro c next hc hconsistent hnext
        exact OllamaCall.consistent_step (hroom c hc) hconsistent hnext

theorem sum_slots (calls : List OllamaCall) :
    (calls.map slots).sum = calls.countP OllamaCall.holdsSlot := by
  induction calls with
  | nil => rfl
  | cons c calls ih =>
      simp only [List.map_cons, List.sum_cons, List.countP_cons, ih, slots]
      cases c.holdsSlot with
      | false => simp
      | true => simp [Nat.add_comm]

/-- In every run of any calls, the free slots and the calls that have one add up to the limit,
and no more generations than the limit are with Ollama at once. No slot is given back twice. A
call makes at most one request more than there are retries, a streamed one makes one at most,
and it ends as the last reply says, which comes after replies that each called for a retry. -/
theorem calls_bounded {events : List ClientEvent}
    (h : run (step limit maxRetries) (start limit) events = some σ) :
    σ.free + σ.parties.countP OllamaCall.holdsSlot = limit ∧
    σ.parties.countP OllamaCall.isGenerating ≤ limit ∧
    ∀ c ∈ σ.parties, c.posts ≤ maxRetries + 1 ∧ (c.kind = .stream → c.posts ≤ 1) ∧
      ∀ outcome, c.phase = .ended outcome →
        outcome ≠ .overReleased ∧ OllamaCall.Ends maxRetries c.kind c.replies outcome := by
  have hstart : Accounted limit maxRetries (start limit) := ⟨rfl, by simp [start]⟩
  have hσ : Accounted limit maxRetries σ :=
    run_invariant (fun _ _ _ hi hstep => accounted_step hi hstep) hstart h
  have htotal := hσ.total
  rw [Shared.total, sum_slots] at htotal
  have hgenerating : σ.parties.countP OllamaCall.isGenerating ≤
      σ.parties.countP OllamaCall.holdsSlot :=
    List.countP_mono_left fun c _ => OllamaCall.isGenerating_le_holdsSlot
  refine ⟨htotal, by omega, fun c hc => ?_⟩
  have hconsistent := hσ.consistent c hc
  refine ⟨hconsistent.posts_le.1, hconsistent.posts_le.2, fun outcome hphase => ?_⟩
  rw [Consistent, hphase] at hconsistent
  exact ⟨hconsistent.ne_overReleased, hconsistent⟩

/-- One slot: a generation is retried after a 503, a stream waits for it and is refused, and an
embedding goes on beside them. -/
def oneSlot : List ClientEvent :=
  [.arrive .generate, .arrive .stream, .arrive .embed, .call 0 .acquire, .call 0 .check,
    .call 0 .post, .call 2 .check, .call 2 .post, .call 0 (.reply (.response 503)),
    .call 2 (.reply .readTimeout), .call 0 .check, .call 0 .post,
    .call 0 (.reply (.response 200)), .call 1 .acquire, .call 1 .post,
    .call 1 (.reply (.response 404))]

theorem calls_bounded_oneSlot : ∃ σ, run (step 1 2) (start 1) oneSlot = some σ ∧
    σ.free + σ.parties.countP OllamaCall.holdsSlot = 1 ∧
    σ.parties.countP OllamaCall.isGenerating ≤ 1 := by
  have hrun : (run (step 1 2) (start 1) oneSlot).isSome = true := by decide
  obtain ⟨σ, hσ⟩ := Option.isSome_iff_exists.mp hrun
  obtain ⟨hslots, hgenerating, -⟩ := calls_bounded hσ
  exact ⟨σ, hσ, hslots, hgenerating⟩

end OllamaClient

end LocalGraphRag.Rag
