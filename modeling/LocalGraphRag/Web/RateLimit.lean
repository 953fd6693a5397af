import LocalGraphRag.Numbers.Rounding
import LocalGraphRag.Python.Text
import LocalGraphRag.Systems.History
import LocalGraphRag.Systems.SlidingWindow
import Mathlib.Algebra.Order.Group.Int

/-!
# The rate limiter

The times of the accepted calls of each client, cut back when a call is accepted and dropped
by a sweep once all of them are old. The limiter decides as the sliding window over the
client's own calls does, where the age of a call is rounded.

## Implementation notes

A round of a sweep and a check each hold the lock, so a history is a list of them. Times are
the values of `time.monotonic()`, of any type with a subtraction that respects the order; the
clock's own is that of `Double`. The accepted calls are a history variable that no part of
the limiter reads.
-/

namespace LocalGraphRag.Web

open LocalGraphRag.Numbers LocalGraphRag.Python LocalGraphRag.Systems

/-- `_rate_buckets`: the times kept for each client. -/
abbrev Buckets (τ : Type) := Text → Option (List τ)

/-- `RATE_WINDOW_SECONDS` and the bound on the requests in it. -/
structure Limiter (τ : Type) where
  windowSeconds : τ
  maxRequests : ℕ

variable {τ : Type}

/-- What happens to the buckets, with the time it reads. -/
inductive LimiterEvent (τ : Type) where
  | check (ip : Text) (now : τ)
  | sweep (now : τ)

def LimiterEvent.time : LimiterEvent τ → τ
  | check _ now => now
  | sweep now => now

/-- The time of a call for the client. -/
def LimiterEvent.callBy (ip : Text) : LimiterEvent τ → Option τ
  | check ip' now => if ip' = ip then some now else none
  | sweep _ => none

/-- The times of a client's calls. -/
def callTimes (ip : Text) (events : List (LimiterEvent τ)) : List τ :=
  events.filterMap (LimiterEvent.callBy ip)

theorem callTimes_concat {ip : Text} (seen : List (LimiterEvent τ)) (e : LimiterEvent τ) :
    callTimes ip (seen ++ [e]) = callTimes ip seen ++ (e.callBy ip).toList := by
  rw [callTimes, List.filterMap_append, callTimes]
  cases he : e.callBy ip <;> simp [he]

/-- The buckets, and the calls accepted so far. -/
structure LimiterState (τ : Type) where
  buckets : Buckets τ
  accepted : List (Text × τ)

/-- The accepted calls of a client. -/
def LimiterState.acceptedFor (s : LimiterState τ) (ip : Text) : List τ :=
  s.accepted.filterMap fun c => if c.1 = ip then some c.2 else none

theorem length_filter_accepted (s : LimiterState τ) (ip : Text) (P : τ → Prop)
    [DecidablePred P] : (s.accepted.filter fun c => c.1 = ip ∧ P c.2).length =
      ((s.acceptedFor ip).filter fun t => P t).length := by
  rw [LimiterState.acceptedFor]
  induction s.accepted with
  | nil => rfl
  | cons c accepted ih =>
      by_cases hip : c.1 = ip
      · by_cases hP : P c.2
        · simpa [hip, hP] using ih
        · simpa [hip, hP] using ih
      · simpa [hip] using ih

/-- Events in the order of their times. -/
def InOrder [LE τ] (events : List (LimiterEvent τ)) : Prop :=
  events.Pairwise fun e e' => e.time ≤ e'.time

section InOrder
variable [LE τ] {events : List (LimiterEvent τ)}

theorem InOrder.time_le {before : List (LimiterEvent τ)} {e : LimiterEvent τ}
    (h : InOrder (before ++ [e])) : ∀ e' ∈ before, e'.time ≤ e.time := by
  intro e' he'
  exact (List.pairwise_append.mp h).2.2 e' he' e List.mem_cons_self

theorem InOrder.of_prefix {before : List (LimiterEvent τ)} (h : InOrder events)
    (hbegins : before <+: events) : InOrder before :=
  h.sublist hbegins.sublist

theorem InOrder.callTimes_sorted (h : InOrder events) (ip : Text) :
    (callTimes ip events).Pairwise (· ≤ ·) := by
  apply h.filterMap
  intro e e' hle t ht t' ht'
  cases e with
  | sweep now => cases ht
  | check ip₁ now =>
      cases e' with
      | sweep now' => cases ht'
      | check ip₂ now' =>
          obtain ⟨-, ⟨⟩⟩ := Option.ite_none_right_eq_some.mp ht
          obtain ⟨-, ⟨⟩⟩ := Option.ite_none_right_eq_some.mp ht'
          exact hle

end InOrder

variable [LinearOrder τ] [Sub τ]

namespace Limiter
variable (limiter : Limiter τ)

/-- The times that still count. -/
def active (now : τ) (times : List τ) : List τ :=
  times.filter fun t => now - t < limiter.windowSeconds

/-- `check_rate_limit` at a time. -/
def checkRateLimit (now : τ) (ip : Text) (buckets : Buckets τ) : Bool × Buckets τ :=
  let active := limiter.active now ((buckets ip).getD [])
  if active.length ≥ limiter.maxRequests then (false, buckets)
  else (true, Function.update buckets ip (some (active ++ [now])))

/-- One round of `_sweep_expired`. -/
def sweepExpired (now : τ) (buckets : Buckets τ) : Buckets τ := fun ip =>
  (buckets ip).filter fun times => times.any fun t => now - t < limiter.windowSeconds

end Limiter

namespace Limiter
variable (limiter : Limiter τ)

def step (s : LimiterState τ) : LimiterEvent τ → LimiterState τ
  | .check ip now =>
      let checked := limiter.checkRateLimit now ip s.buckets
      ⟨checked.2, if checked.1 then s.accepted ++ [(ip, now)] else s.accepted⟩
  | .sweep now => { s with buckets := limiter.sweepExpired now s.buckets }

/-- The state after some events, from empty buckets. -/
def after (events : List (LimiterEvent τ)) : LimiterState τ :=
  events.foldl limiter.step ⟨fun _ => none, []⟩

/-- What the limiter answers a call after some events. -/
def decision (before : List (LimiterEvent τ)) (ip : Text) (now : τ) : Bool :=
  (limiter.checkRateLimit now ip (limiter.after before).buckets).1

end Limiter

section Buckets
variable [MonotoneSub τ] {limiter : Limiter τ} {buckets : Buckets τ} {ip ip' : Text}
variable {now later : τ}

/-- What was cut back earlier has lost nothing that counts later. -/
theorem Limiter.active_active (h : now ≤ later) (times : List τ) :
    limiter.active later (limiter.active now times) = limiter.active later times :=
  recent_recent h times

/-- A sweep drops nothing that counts later. -/
theorem Limiter.active_sweep (h : now ≤ later) :
    limiter.active later ((limiter.sweepExpired now buckets ip).getD []) =
      limiter.active later ((buckets ip).getD []) := by
  rw [Limiter.sweepExpired]
  cases buckets ip with
  | none => rfl
  | some times =>
      by_cases halive : times.any (fun t => now - t < limiter.windowSeconds) = true
      · rw [Option.filter_some, if_pos halive]
      · have hnone : limiter.active now times = [] := by
          apply List.filter_eq_nil_iff.mpr
          intro t ht hactive
          exact halive (List.any_eq_true.mpr ⟨t, ht, hactive⟩)
        rw [Option.filter_some, if_neg halive, Option.getD_none, Option.getD_some,
          ← Limiter.active_active h times, hnone]

end Buckets

section Run
variable {limiter : Limiter τ} {s : LimiterState τ} {seen : List (LimiterEvent τ)} {ip : Text}

/-- The accepted calls of a client are those that its sliding window admits, and its bucket
tells which of them count, now and later. -/
structure Keeps (limiter : Limiter τ) (ip : Text) (s : LimiterState τ)
    (seen : List (LimiterEvent τ)) : Prop where
  accepted : s.acceptedFor ip =
    admitted limiter.windowSeconds limiter.maxRequests (callTimes ip seen)
  active : ∀ now, (∀ e ∈ seen, e.time ≤ now) →
    limiter.active now ((s.buckets ip).getD []) =
      recent limiter.windowSeconds now (s.acceptedFor ip)

theorem keeps_empty : Keeps limiter ip ⟨fun _ => none, []⟩ [] := ⟨rfl, fun _ _ => rfl⟩

/-- A call is answered as the sliding window does. -/
theorem Keeps.check_iff (h : Keeps limiter ip s seen) {now : τ}
    (hnow : ∀ e ∈ seen, e.time ≤ now) : (limiter.checkRateLimit now ip s.buckets).1 = true ↔
      Admits limiter.windowSeconds limiter.maxRequests (s.acceptedFor ip) now := by
  rw [Limiter.checkRateLimit, h.active now hnow, Admits]
  split_ifs with hfull
  · simpa using hfull
  · simpa using hfull

/-- An event that is no call of the client changes neither its accepted calls nor what
counts of them. -/
theorem Keeps.other (h : Keeps limiter ip s seen) {e : LimiterEvent τ} {s' : LimiterState τ}
    (hcall : e.callBy ip = none) (haccepted : s'.acceptedFor ip = s.acceptedFor ip)
    (hactive : ∀ later, e.time ≤ later → limiter.active later ((s'.buckets ip).getD []) =
      limiter.active later ((s.buckets ip).getD [])) :
    Keeps limiter ip s' (seen ++ [e]) := by
  constructor
  · rw [haccepted, h.accepted, callTimes_concat, hcall, Option.toList_none, List.append_nil]
  · intro later hlater
    rw [List.forall_mem_append, List.forall_mem_singleton] at hlater
    rw [haccepted, hactive later hlater.2, h.active later hlater.1]

variable [MonotoneSub τ]

/-- A call of the client goes into its bucket if it is admitted. -/
theorem Keeps.call (h : Keeps limiter ip s seen) {now : τ} (hnow : ∀ e ∈ seen, e.time ≤ now) :
    Keeps limiter ip (limiter.step s (.check ip now)) (seen ++ [.check ip now]) := by
  have hcall : (LimiterEvent.check ip now).callBy ip = some now := if_pos rfl
  have hcheck := h.check_iff hnow
  by_cases hroom : Admits limiter.windowSeconds limiter.maxRequests (s.acceptedFor ip) now
  · have hfew : ¬(limiter.active now ((s.buckets ip).getD [])).length ≥ limiter.maxRequests := by
      rw [h.active now hnow]
      exact Nat.not_le.mpr hroom
    have hstep : limiter.step s (.check ip now) =
        ⟨Function.update s.buckets ip
          (some (limiter.active now ((s.buckets ip).getD []) ++ [now])),
          s.accepted ++ [(ip, now)]⟩ := by
      simp only [Limiter.step, Limiter.checkRateLimit, if_neg hfew, if_true]
    have haccepted : (limiter.step s (.check ip now)).acceptedFor ip =
        s.acceptedFor ip ++ [now] := by
      rw [hstep, LimiterState.acceptedFor, List.filterMap_append]
      simp [LimiterState.acceptedFor]
    constructor
    · calc
        (limiter.step s (.check ip now)).acceptedFor ip = s.acceptedFor ip ++ [now] := haccepted
        _ = accept limiter.windowSeconds limiter.maxRequests (s.acceptedFor ip) now :=
          (if_pos hroom).symm
        _ = admitted limiter.windowSeconds limiter.maxRequests
            (callTimes ip (seen ++ [.check ip now])) := by
          rw [callTimes_concat, hcall, Option.toList_some, admitted_concat, ← h.accepted]
    · intro later hlater
      rw [List.forall_mem_append, List.forall_mem_singleton] at hlater
      rw [haccepted, hstep]
      change limiter.active later ((Function.update s.buckets ip _ ip).getD []) = _
      rw [Function.update_self, Option.getD_some, Limiter.active, List.filter_append]
      change limiter.active later (limiter.active now _) ++ limiter.active later [now] = _
      have hle : now ≤ later := hlater.2
      rw [Limiter.active_active hle, h.active later hlater.1, recent, recent,
        List.filter_append]
      rfl
  · have hstep : limiter.step s (.check ip now) = s := by
      have hfull : (limiter.active now ((s.buckets ip).getD [])).length ≥ limiter.maxRequests := by
        rw [h.active now hnow]
        exact Nat.not_lt.mp hroom
      simp only [Limiter.step, Limiter.checkRateLimit, if_pos hfull, Bool.false_eq_true, if_false]
    rw [hstep]
    constructor
    · calc
        s.acceptedFor ip =
            accept limiter.windowSeconds limiter.maxRequests (s.acceptedFor ip) now :=
          (if_neg hroom).symm
        _ = admitted limiter.windowSeconds limiter.maxRequests
            (callTimes ip (seen ++ [.check ip now])) := by
          rw [callTimes_concat, hcall, Option.toList_some, admitted_concat, ← h.accepted]
    · intro later hlater
      exact h.active later fun e he => hlater e (List.mem_append_left _ he)

theorem Keeps.step (h : Keeps limiter ip s seen) {e : LimiterEvent τ}
    (hnow : ∀ e' ∈ seen, e'.time ≤ e.time) :
    Keeps limiter ip (limiter.step s e) (seen ++ [e]) := by
  cases e with
  | check ip' now =>
      by_cases hip : ip' = ip
      · subst hip
        exact h.call hnow
      · have hcall : (LimiterEvent.check ip' now).callBy ip = none := if_neg hip
        apply h.other hcall
        · simp only [Limiter.step, LimiterState.acceptedFor]
          split_ifs
          · simp [List.filterMap_append, hip]
          · rfl
        · intro later _
          simp only [Limiter.step, Limiter.checkRateLimit]
          split_ifs
          · rfl
          · simp only [Function.update_of_ne (Ne.symm hip)]
  | sweep now =>
      have hcall : (LimiterEvent.sweep now).callBy ip = none := rfl
      have haccepted : (limiter.step s (.sweep now)).acceptedFor ip = s.acceptedFor ip := rfl
      exact h.other hcall haccepted fun later hlater => Limiter.active_sweep hlater

/-- After events in the order of their times. -/
theorem keeps_after {events : List (LimiterEvent τ)}
    (hsorted : InOrder events) :
    Keeps limiter ip (limiter.after events) events := by
  apply foldl_invariant _ (Keeps limiter ip) keeps_empty
  intro before e hbegins s h
  apply h.step
  exact (hsorted.of_prefix hbegins).time_le

/-- A decision is that of the sliding window over the client's own calls. -/
theorem decision_iff {before : List (LimiterEvent τ)} {now : τ}
    (h : InOrder (before ++ [.check ip now])) : limiter.decision before ip now = true ↔
      Admits limiter.windowSeconds limiter.maxRequests
        (admitted limiter.windowSeconds limiter.maxRequests (callTimes ip before)) now := by
  have hkeeps : Keeps limiter ip (limiter.after before) before :=
    keeps_after (h.of_prefix (List.prefix_append _ _))
  rw [← hkeeps.accepted]
  exact hkeeps.check_iff h.time_le

end Run

section OwnCalls
variable (limiter : Limiter τ) (events : List (LimiterEvent τ))

/-- A decision is the same after any other events with the same calls of the client, or with
only those of them that were accepted. -/
def DecidesByOwnCalls : Prop :=
  ∀ before ip now, before ++ [.check ip now] <+: events →
    ∀ other, InOrder (other ++ [.check ip now]) →
      callTimes ip other = callTimes ip before ∨
        callTimes ip other = (limiter.after before).acceptedFor ip →
      limiter.decision other ip now = limiter.decision before ip now

variable {limiter events} [MonotoneSub τ]

theorem InOrder.acceptedFor_eq (h : InOrder events) (ip : Text) :
    (limiter.after events).acceptedFor ip =
      admitted limiter.windowSeconds limiter.maxRequests (callTimes ip events) :=
  (keeps_after h).accepted

/-- What was accepted before a call is no later than it. -/
theorem InOrder.accepted_le {before : List (LimiterEvent τ)} {ip : Text} {now : τ}
    (h : InOrder (before ++ [.check ip now])) :
    ∀ t ∈ (limiter.after before).acceptedFor ip, t ≤ now := by
  intro t ht
  rw [(h.of_prefix (List.prefix_append before _)).acceptedFor_eq] at ht
  have hsorted := h.callTimes_sorted ip
  have hcall : (LimiterEvent.check ip now).callBy ip = some now := if_pos rfl
  rw [callTimes_concat, hcall, Option.toList_some, List.pairwise_append] at hsorted
  exact hsorted.2.2 t ((admitted_sublist _).subset ht) now List.mem_cons_self

theorem InOrder.decidesByOwnCalls (h : InOrder events) : DecidesByOwnCalls limiter events := by
  intro before ip now hbegins other hother htimes
  have hnow := h.of_prefix hbegins
  rw [Bool.eq_iff_iff, decision_iff hother, decision_iff hnow]
  obtain hsame | haccepted := htimes
  · rw [hsame]
  · rw [haccepted, (hnow.of_prefix (List.prefix_append before _)).acceptedFor_eq,
      admitted_admitted]

/-- Of a client's calls that are younger than the window to each other, at most the bound are
accepted. -/
theorem InOrder.length_accepted_le (h : InOrder events) (ip : Text) (I : τ → Prop)
    [DecidablePred I] (hI : ∀ s t, I s → I t → s ≤ t → t - s < limiter.windowSeconds) :
    ((limiter.after events).accepted.filter fun c => c.1 = ip ∧ I c.2).length ≤
      limiter.maxRequests := by
  rw [length_filter_accepted, h.acceptedFor_eq]
  exact length_filter_admitted_le (h.callTimes_sorted ip) I hI

end OwnCalls

instance : MonotoneSub Double := ⟨Double.sub_le_sub⟩

section Window
variable (limiter : Limiter Double) (events : List (LimiterEvent Double))

/-- The limiter is an exact sliding window. A call is accepted if there is room for it in
the window that ends with it, and no interval of that length holds more accepted calls of a
client than the bound. -/
structure ExactWindow : Prop where
  exact : ∀ before ip now, before ++ [.check ip now] <+: events →
    (limiter.decision before ip now = true ↔
      ((limiter.after before).accepted.filter fun c => c.1 = ip ∧
        now.val - limiter.windowSeconds.val < c.2.val ∧ c.2.val ≤ now.val).length <
          limiter.maxRequests)
  bounded : ∀ ip (a : ℚ),
    ((limiter.after events).accepted.filter fun c => c.1 = ip ∧
      a ≤ c.2.val ∧ c.2.val < a + limiter.windowSeconds.val).length ≤ limiter.maxRequests ∧
    ((limiter.after events).accepted.filter fun c => c.1 = ip ∧
      a < c.2.val ∧ c.2.val ≤ a + limiter.windowSeconds.val).length ≤ limiter.maxRequests
  own_calls : DecidesByOwnCalls limiter events

/-- The limiter is a sliding window up to the rounding of ages. A call in the window does not
count if its age rounds to the length of the window, and no times whose distances round to
less than that length, as in an interval whose length does, hold more accepted calls of a
client than the bound. -/
structure RoundedWindow : Prop where
  exact : ∀ before ip now, before ++ [.check ip now] <+: events →
    (limiter.decision before ip now = true ↔
      ((limiter.after before).accepted.filter fun c => c.1 = ip ∧
        now.val - limiter.windowSeconds.val < c.2.val ∧ c.2.val ≤ now.val ∧
        binary64.round (now.val - c.2.val) ≠ limiter.windowSeconds.val).length <
          limiter.maxRequests)
  apart : ∀ ip (I : Double → Prop) [DecidablePred I],
    (∀ s t, I s → I t → s ≤ t →
      binary64.round (t.val - s.val) < limiter.windowSeconds.val) →
    ((limiter.after events).accepted.filter fun c => c.1 = ip ∧ I c.2).length ≤
      limiter.maxRequests
  bounded : ∀ ip (a b : ℚ), binary64.round (b - a) < limiter.windowSeconds.val →
    ((limiter.after events).accepted.filter fun c => c.1 = ip ∧
      a ≤ c.2.val ∧ c.2.val ≤ b).length ≤ limiter.maxRequests
  own_calls : DecidesByOwnCalls limiter events

variable {limiter events}

/-- A time counts if it lies in the window, unless its age rounds to the window's length. -/
theorem sub_lt_iff {window now t : Double} : now - t < window ↔
    now.val - window.val < t.val ∧ binary64.round (now.val - t.val) ≠ window.val := by
  change binary64.round (now.val - t.val) < window.val ↔ _
  constructor
  · intro h
    exact ⟨sub_lt_comm.mp (BinaryFormat.lt_of_round_lt window.property h), h.ne⟩
  · intro h
    exact lt_of_le_of_ne (BinaryFormat.round_le window.property (sub_lt_comm.mp h.1).le) h.2

/-- The rate limiter is a sliding window over the calls of each client, up to rounding. -/
theorem rateLimit_roundedWindow (h : InOrder events) : RoundedWindow limiter events := by
  have hapart : ∀ ip (I : Double → Prop) [DecidablePred I],
      (∀ s t, I s → I t → s ≤ t →
        binary64.round (t.val - s.val) < limiter.windowSeconds.val) →
      ((limiter.after events).accepted.filter fun c => c.1 = ip ∧ I c.2).length ≤
        limiter.maxRequests := by
    intro ip I _ hI
    exact h.length_accepted_le ip I hI
  refine ⟨?_, hapart, ?_, h.decidesByOwnCalls⟩
  · intro before ip now hbegins
    have hnow := h.of_prefix hbegins
    have hbefore := hnow.of_prefix (List.prefix_append before _)
    have hcounts : recent limiter.windowSeconds now ((limiter.after before).acceptedFor ip) =
        ((limiter.after before).acceptedFor ip).filter fun t =>
          now.val - limiter.windowSeconds.val < t.val ∧ t.val ≤ now.val ∧
            binary64.round (now.val - t.val) ≠ limiter.windowSeconds.val := by
      apply List.filter_congr
      intro t ht
      have hle : t.val ≤ now.val := hnow.accepted_le t ht
      simp only [sub_lt_iff, hle, true_and]
    rw [decision_iff hnow, Admits, ← hbefore.acceptedFor_eq, hcounts, ← length_filter_accepted]
  · intro ip a b hab
    apply hapart ip fun t => a ≤ t.val ∧ t.val ≤ b
    intro s t hs ht _
    exact (BinaryFormat.round_mono (sub_le_sub ht.2 hs.1)).trans_lt hab

/-- Two calls of one client, less than a minute apart. -/
def sixtyApart : List (LimiterEvent Double) :=
  [.check (text "a") (Double.ofRat (3 / 10)), .check (text "a") (Double.ofRat (603 / 10))]

/-- The second call is accepted, since its distance from the first rounds to a minute. -/
theorem exactWindow_rounding : InOrder sixtyApart ∧
    ¬ ExactWindow ⟨60, 1⟩ sixtyApart := by
  refine ⟨by unfold InOrder; decide +kernel, fun h => ?_⟩
  have hexact := h.exact [.check (text "a") (Double.ofRat (3 / 10))] (text "a")
    (Double.ofRat (603 / 10)) List.prefix_rfl
  revert hexact
  decide +kernel

/-- A call in the window counts after a sweep, and one a minute old does not. -/
theorem rateLimit_roundedWindow_sixty : RoundedWindow ⟨60, 1⟩
    [.check (text "a") (Double.ofRat (3 / 10)), .sweep 30,
      .check (text "b") 31, .check (text "a") 59,
      .check (text "a") (Double.ofRat (603 / 10))] :=
  rateLimit_roundedWindow (by unfold InOrder; decide +kernel)

end Window

end LocalGraphRag.Web
