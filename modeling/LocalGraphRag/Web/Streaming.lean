import LocalGraphRag.Python.Text
import LocalGraphRag.Systems.Runs

/-!
# Streamed answers

A worker thread hands the texts of an answer to the event loop through a bounded queue;
a consumer there turns what it takes into chunks for the client. Each end gives up after
a timeout of its own, and a cancel flag goes from the consumer to the worker.

## Implementation notes

What the generator yields, when it ends and whether it raises are choices of the
environment, as are the stalls of both ends and of the client. A put that times out may
still have placed its item, when the item got in just before the cancellation.
`produced`, `ended` and `taken` record the past and are read by no step.
-/

namespace LocalGraphRag.Web

open LocalGraphRag.Python LocalGraphRag.Systems

/-- What the worker puts in the queue: a text, an exception or the `None` of the end. -/
inductive Item where
  | text (t : Text)
  | exception
  | sentinel
  deriving DecidableEq

/-- What the response yields. -/
inductive Chunk where
  | content (t : Text)
  | generationError
  | timedOut
  | atCapacity
  | stop
  | done
  deriving DecidableEq

namespace Chunk

/-- The `content` that `make_stream_chunk` is called with. -/
def delta : Chunk → Option Text
  | content t => some t
  | generationError => some (text "\n\n[Generation error — please retry]")
  | timedOut => some (text "\n\n[Error: generation timed out]")
  | atCapacity => some (text "\n\n[Error: server at capacity, please retry]")
  | stop => none
  | done => none

/-- The text of the answer in a chunk. -/
def answer : Chunk → Option Text
  | content t => some t
  | _ => none

/-- The chunks that tell of an error or a timeout. -/
def isNotice : Chunk → Bool
  | generationError => true
  | timedOut => true
  | atCapacity => true
  | _ => false

end Chunk

/-- Where `_run` stands: in the generator, or in a `_put`, before or after the coroutine
was scheduled. -/
inductive WorkerPhase where
  | notStarted
  | generating
  | calling (item : Item)
  | waiting (item : Item)
  | exited
  deriving DecidableEq

/-- Where the response stands. -/
inductive ConsumerPhase where
  | starting
  | reading
  | yielding (chunk : Chunk)
  | leaving
  | finished
  | aborted
  deriving DecidableEq

structure Stream where
  queue : List Item
  cancelEvent : Bool
  loopClosed : Bool
  connected : Bool
  worker : WorkerPhase
  consumer : ConsumerPhase
  produced : List Text
  ended : Bool
  taken : List Item
  received : List Chunk
  deriving DecidableEq

inductive StreamEvent where
  | begin
  | capacityTimeout
  | startFails
  | produce (t : Text)
  | generationEnds
  | generationRaises
  | call
  | putSucceeds
  | putTimesOut (placed : Bool)
  | putCancelled
  | get
  | getTimesOut
  | deliver
  | leave
  | disconnect
  | watch
  | abort
  | closeLoop
  deriving DecidableEq

/-- The events of the worker's thread. -/
def StreamEvent.isWorkers : StreamEvent → Bool
  | produce _ => true
  | generationEnds => true
  | generationRaises => true
  | call => true
  | putSucceeds => true
  | putTimesOut _ => true
  | putCancelled => true
  | _ => false

namespace Stream

def start : Stream where
  queue := []
  cancelEvent := false
  loopClosed := false
  connected := true
  worker := .notStarted
  consumer := .starting
  produced := []
  ended := false
  taken := []
  received := []

/-- `asyncio.Queue(maxsize=32)`. -/
def maxsize : Nat := 32

/-- What follows on a `_put`: the next text after one that was taken, else the `finally`
block with the `None` of the end. -/
def afterPut : Item → Bool → WorkerPhase
  | .text _, true => .generating
  | .text _, false => .calling .sentinel
  | .exception, _ => .calling .sentinel
  | .sentinel, _ => .exited

/-- The chunk for an item, where it is not the end. -/
def afterGet : Item → ConsumerPhase
  | .text t => .yielding (.content t)
  | .exception => .yielding .generationError
  | .sentinel => .leaving

/-- Where the response goes on when a chunk was sent. -/
def afterYield : Chunk → ConsumerPhase
  | .content _ => .reading
  | .generationError => .leaving
  | .timedOut => .leaving
  | .atCapacity => .yielding .stop
  | .stop => .yielding .done
  | .done => .finished

def step (σ : Stream) : StreamEvent → Option Stream
  | .begin =>
      if σ.consumer = .starting ∧ σ.worker = .notStarted then
        some { σ with worker := .generating, consumer := .reading }
      else none
  | .capacityTimeout =>
      if σ.consumer = .starting then some { σ with consumer := .yielding .atCapacity } else none
  | .startFails =>
      if σ.consumer = .starting then some { σ with consumer := .aborted } else none
  | .produce t =>
      if σ.worker = .generating then
        some { σ with worker := .calling (.text t), produced := σ.produced ++ [t] }
      else none
  | .generationEnds =>
      if σ.worker = .generating then
        some { σ with worker := .calling .sentinel, ended := true }
      else none
  | .generationRaises =>
      if σ.worker = .generating then some { σ with worker := .calling .exception } else none
  | .call =>
      match σ.worker with
      | .calling item =>
          if σ.cancelEvent ∨ σ.loopClosed then some { σ with worker := afterPut item false }
          else some { σ with worker := .waiting item }
      | _ => none
  | .putSucceeds =>
      match σ.worker with
      | .waiting item =>
          if ¬ σ.loopClosed ∧ σ.queue.length < maxsize then
            some { σ with worker := afterPut item true, queue := σ.queue ++ [item] }
          else none
      | _ => none
  | .putTimesOut placed =>
      match σ.worker with
      | .waiting item =>
          if ¬ placed then some { σ with worker := afterPut item false }
          else if ¬ σ.loopClosed ∧ σ.queue.length < maxsize then
            some { σ with worker := afterPut item false, queue := σ.queue ++ [item] }
          else none
      | _ => none
  | .putCancelled =>
      match σ.worker with
      | .waiting item =>
          if σ.loopClosed then some { σ with worker := afterPut item false } else none
      | _ => none
  | .get =>
      if σ.consumer = .reading ∧ ¬ σ.loopClosed then
        match σ.queue with
        | item :: queue =>
            some { σ with queue, taken := σ.taken ++ [item], consumer := afterGet item }
        | [] => none
      else none
  | .getTimesOut =>
      if σ.consumer = .reading ∧ ¬ σ.loopClosed then
        some { σ with cancelEvent := true, consumer := .yielding .timedOut }
      else none
  | .deliver =>
      match σ.consumer with
      | .yielding chunk =>
          if σ.connected ∧ ¬ σ.loopClosed then
            some { σ with received := σ.received ++ [chunk], consumer := afterYield chunk }
          else none
      | _ => none
  | .leave =>
      if σ.consumer = .leaving then
        some { σ with cancelEvent := true, consumer := .yielding .stop }
      else none
  | .disconnect => some { σ with connected := false }
  | .watch => if ¬ σ.connected then some { σ with cancelEvent := true } else none
  | .abort =>
      if ¬ σ.connected ∨ σ.loopClosed then
        some { σ with cancelEvent := true, consumer := .aborted }
      else none
  | .closeLoop => some { σ with loopClosed := true }

/-- No put of a text or of an exception times out. -/
def PutsInTime (σ : Stream) (event : StreamEvent) : Prop :=
  ∀ placed, event = .putTimesOut placed → σ.worker = .waiting .sentinel

/-- The client has read the answer to its end and no notice. -/
def Finished (σ : Stream) : Prop := .stop ∈ σ.received ∧ ∀ c ∈ σ.received, c.isNotice = false

instance (σ : Stream) : Decidable σ.Finished := inferInstanceAs (Decidable (_ ∧ _))

/-- The client has the texts of a generation that ended by itself, each once and in order. -/
def Complete (σ : Stream) : Prop := σ.ended ∧ σ.received.filterMap Chunk.answer = σ.produced

instance (σ : Stream) : Decidable σ.Complete := inferInstanceAs (Decidable (_ ∧ _))

section Steps
variable {σ σ' : Stream} {event : StreamEvent}

/-- What the worker does at an event: the generator gives it something to put, and a put is
given up, scheduled, or over with or without its item in the queue. -/
inductive WorkerStep (σ : Stream) : StreamEvent → Stream → Prop where
  | produced (t : Text) (hphase : σ.worker = .generating) : WorkerStep σ (.produce t)
      { σ with worker := .calling (.text t), produced := σ.produced ++ [t] }
  | ended (hphase : σ.worker = .generating) : WorkerStep σ .generationEnds
      { σ with worker := .calling .sentinel, ended := true }
  | raised (hphase : σ.worker = .generating) : WorkerStep σ .generationRaises
      { σ with worker := .calling .exception }
  | givenUp (item : Item) (hphase : σ.worker = .calling item)
      (hstop : σ.cancelEvent ∨ σ.loopClosed) :
      WorkerStep σ .call { σ with worker := afterPut item false }
  | scheduled (item : Item) (hphase : σ.worker = .calling item)
      (hstop : ¬ (σ.cancelEvent ∨ σ.loopClosed)) :
      WorkerStep σ .call { σ with worker := .waiting item }
  | put (item : Item) (hphase : σ.worker = .waiting item) : WorkerStep σ .putSucceeds
      { σ with worker := afterPut item true, queue := σ.queue ++ [item] }
  | lost (item : Item) (hphase : σ.worker = .waiting item) : WorkerStep σ (.putTimesOut false)
      { σ with worker := afterPut item false }
  | late (item : Item) (hphase : σ.worker = .waiting item) : WorkerStep σ (.putTimesOut true)
      { σ with worker := afterPut item false, queue := σ.queue ++ [item] }
  | cancelled (item : Item) (hphase : σ.worker = .waiting item) (hclosed : σ.loopClosed) :
      WorkerStep σ .putCancelled { σ with worker := afterPut item false }

/-- What the response, the client and the server do at an event. -/
inductive ConsumerStep (σ : Stream) : StreamEvent → Stream → Prop where
  | began (hphase : σ.consumer = .starting) (hworker : σ.worker = .notStarted) :
      ConsumerStep σ .begin { σ with worker := .generating, consumer := .reading }
  | rejected (hphase : σ.consumer = .starting) :
      ConsumerStep σ .capacityTimeout { σ with consumer := .yielding .atCapacity }
  | failed (hphase : σ.consumer = .starting) :
      ConsumerStep σ .startFails { σ with consumer := .aborted }
  | got (item : Item) (queue : List Item) (hphase : σ.consumer = .reading)
      (hqueue : σ.queue = item :: queue) : ConsumerStep σ .get
      { σ with queue, taken := σ.taken ++ [item], consumer := afterGet item }
  | timedOut (hphase : σ.consumer = .reading) : ConsumerStep σ .getTimesOut
      { σ with cancelEvent := true, consumer := .yielding .timedOut }
  | delivered (chunk : Chunk) (hphase : σ.consumer = .yielding chunk) : ConsumerStep σ .deliver
      { σ with received := σ.received ++ [chunk], consumer := afterYield chunk }
  | left (hphase : σ.consumer = .leaving) : ConsumerStep σ .leave
      { σ with cancelEvent := true, consumer := .yielding .stop }
  | disconnected : ConsumerStep σ .disconnect { σ with connected := false }
  | watched : ConsumerStep σ .watch { σ with cancelEvent := true }
  | aborted : ConsumerStep σ .abort { σ with cancelEvent := true, consumer := .aborted }
  | closed : ConsumerStep σ .closeLoop { σ with loopClosed := true }

theorem workerStep (hworkers : event.isWorkers = true) (hstep : σ.step event = some σ') :
    WorkerStep σ event σ' := by
  cases event with
  | produce t =>
      obtain ⟨hphase, hσ'⟩ := Option.ite_none_right_eq_some.mp hstep
      cases hσ'
      exact .produced t hphase
  | generationEnds =>
      obtain ⟨hphase, hσ'⟩ := Option.ite_none_right_eq_some.mp hstep
      cases hσ'
      exact .ended hphase
  | generationRaises =>
      obtain ⟨hphase, hσ'⟩ := Option.ite_none_right_eq_some.mp hstep
      cases hσ'
      exact .raised hphase
  | call =>
      simp only [Stream.step] at hstep
      split at hstep
      · rename_i item hphase
        split_ifs at hstep with hstop
        · cases hstep
          exact .givenUp item hphase hstop
        · cases hstep
          exact .scheduled item hphase hstop
      · cases hstep
  | putSucceeds =>
      simp only [Stream.step] at hstep
      split at hstep
      · rename_i item hphase
        obtain ⟨-, hσ'⟩ := Option.ite_none_right_eq_some.mp hstep
        cases hσ'
        exact .put item hphase
      · cases hstep
  | putTimesOut placed =>
      simp only [Stream.step] at hstep
      split at hstep
      · rename_i item hphase
        cases placed with
        | false =>
            cases hstep
            exact .lost item hphase
        | true =>
            obtain ⟨-, hσ'⟩ := Option.ite_none_right_eq_some.mp hstep
            cases hσ'
            exact .late item hphase
      · cases hstep
  | putCancelled =>
      simp only [Stream.step] at hstep
      split at hstep
      · rename_i item hphase
        obtain ⟨hclosed, hσ'⟩ := Option.ite_none_right_eq_some.mp hstep
        cases hσ'
        exact .cancelled item hphase hclosed
      · cases hstep
  | _ => cases hworkers

theorem consumerStep (hworkers : event.isWorkers = false) (hstep : σ.step event = some σ') :
    ConsumerStep σ event σ' := by
  cases event with
  | begin =>
      obtain ⟨hphase, hσ'⟩ := Option.ite_none_right_eq_some.mp hstep
      cases hσ'
      exact .began hphase.1 hphase.2
  | capacityTimeout =>
      obtain ⟨hphase, hσ'⟩ := Option.ite_none_right_eq_some.mp hstep
      cases hσ'
      exact .rejected hphase
  | startFails =>
      obtain ⟨hphase, hσ'⟩ := Option.ite_none_right_eq_some.mp hstep
      cases hσ'
      exact .failed hphase
  | get =>
      obtain ⟨hphase, hσ'⟩ := Option.ite_none_right_eq_some.mp hstep
      split at hσ'
      · rename_i item queue hqueue
        cases hσ'
        exact .got item queue hphase.1 hqueue
      · cases hσ'
  | getTimesOut =>
      obtain ⟨hphase, hσ'⟩ := Option.ite_none_right_eq_some.mp hstep
      cases hσ'
      exact .timedOut hphase.1
  | deliver =>
      simp only [Stream.step] at hstep
      split at hstep
      · rename_i chunk hphase
        obtain ⟨-, hσ'⟩ := Option.ite_none_right_eq_some.mp hstep
        cases hσ'
        exact .delivered chunk hphase
      · cases hstep
  | leave =>
      obtain ⟨hphase, hσ'⟩ := Option.ite_none_right_eq_some.mp hstep
      cases hσ'
      exact .left hphase
  | disconnect =>
      cases hstep
      exact .disconnected
  | watch =>
      obtain ⟨-, hσ'⟩ := Option.ite_none_right_eq_some.mp hstep
      cases hσ'
      exact .watched
  | abort =>
      obtain ⟨-, hσ'⟩ := Option.ite_none_right_eq_some.mp hstep
      cases hσ'
      exact .aborted
  | closeLoop =>
      cases hstep
      exact .closed
  | _ => cases hworkers

/-- Every item that was ever put. -/
def sent (σ : Stream) : List Item := σ.taken ++ σ.queue

/-- The worker leaves the consumer alone. -/
theorem WorkerStep.frame (h : WorkerStep σ event σ') :
    σ'.consumer = σ.consumer ∧ σ'.taken = σ.taken ∧ σ'.received = σ.received := by
  cases h <;> exact ⟨rfl, rfl, rfl⟩

/-- The consumer and the client leave the worker alone, beyond starting it and telling
it to stop. -/
theorem ConsumerStep.frame (hbegin : event ≠ .begin) (h : ConsumerStep σ event σ') :
    σ'.worker = σ.worker ∧ σ'.produced = σ.produced ∧ σ'.ended = σ.ended ∧ σ'.sent = σ.sent ∧
      (σ.cancelEvent ∨ σ.loopClosed → σ'.cancelEvent ∨ σ'.loopClosed) := by
  cases h with
  | began => exact absurd rfl hbegin
  | got item queue hphase hqueue =>
      refine ⟨rfl, rfl, rfl, ?_, id⟩
      rw [sent, sent, hqueue, List.append_assoc, List.singleton_append]
  | timedOut => exact ⟨rfl, rfl, rfl, rfl, fun _ => Or.inl rfl⟩
  | left => exact ⟨rfl, rfl, rfl, rfl, fun _ => Or.inl rfl⟩
  | watched => exact ⟨rfl, rfl, rfl, rfl, fun _ => Or.inl rfl⟩
  | aborted => exact ⟨rfl, rfl, rfl, rfl, fun _ => Or.inl rfl⟩
  | closed => exact ⟨rfl, rfl, rfl, rfl, fun _ => Or.inr rfl⟩
  | _ => exact ⟨rfl, rfl, rfl, rfl, id⟩

end Steps

section Consumer
variable {σ σ' : Stream} {event : StreamEvent}

/-- The client was told of a failure, or took every item up to the end of the queue. -/
def AllRead (σ : Stream) : Prop :=
  (∃ c ∈ σ.received, c.isNotice) ∨ ∃ texts : List Text,
    σ.taken = texts.map Item.text ++ [.sentinel] ∧ σ.received.filterMap Chunk.answer = texts

/-- What the client has, by where the response stands. -/
def ConsumerOk (σ : Stream) : ConsumerPhase → Prop
  | .starting => σ.taken = [] ∧ σ.received = []
  | .reading => ∃ texts : List Text, σ.taken = texts.map Item.text ∧
      σ.received = texts.map Chunk.content
  | .yielding (.content t) => ∃ texts : List Text, σ.taken = texts.map Item.text ++ [.text t] ∧
      σ.received = texts.map Chunk.content
  | .yielding .stop => .stop ∉ σ.received ∧ σ.AllRead
  | .yielding .done => σ.AllRead
  | .yielding _ => .stop ∉ σ.received
  | .leaving => .stop ∉ σ.received ∧ σ.AllRead
  | .finished => σ.AllRead
  | .aborted => .stop ∈ σ.received → σ.AllRead

theorem stop_notMem_content (texts : List Text) : .stop ∉ texts.map Chunk.content := by simp

theorem answer_content (texts : List Text) :
    (texts.map Chunk.content).filterMap Chunk.answer = texts := by
  rw [List.filterMap_map]
  exact List.filterMap_some

theorem ConsumerOk.allRead (h : σ.ConsumerOk σ.consumer) (hstop : .stop ∈ σ.received) :
    σ.AllRead := by
  cases hphase : σ.consumer with
  | starting =>
      rw [hphase] at h
      rw [h.2] at hstop
      cases hstop
  | reading =>
      rw [hphase] at h
      obtain ⟨texts, -, hreceived⟩ := h
      exact absurd (hreceived ▸ hstop) (stop_notMem_content texts)
  | yielding chunk =>
      rw [hphase] at h
      cases chunk with
      | content t =>
          obtain ⟨texts, -, hreceived⟩ := h
          exact absurd (hreceived ▸ hstop) (stop_notMem_content texts)
      | stop => exact h.2
      | done => exact h
      | _ => exact absurd hstop h
  | leaving =>
      rw [hphase] at h
      exact h.2
  | finished =>
      rw [hphase] at h
      exact h
  | aborted =>
      rw [hphase] at h
      exact h hstop

/-- The worker does not touch what the client has. -/
theorem ConsumerOk.congr {phase : ConsumerPhase} (h : σ.ConsumerOk phase)
    (htaken : σ'.taken = σ.taken) (hreceived : σ'.received = σ.received) :
    σ'.ConsumerOk phase := by
  unfold ConsumerOk AllRead at *
  rw [htaken, hreceived]
  exact h

theorem ConsumerOk.get {item : Item} {queue : List Item} (h : σ.ConsumerOk .reading) :
    { σ with queue, taken := σ.taken ++ [item], consumer := afterGet item }.ConsumerOk
      (afterGet item) := by
  obtain ⟨texts, htaken, hreceived⟩ := h
  cases item with
  | text t => exact ⟨texts, congrArg (· ++ [_]) htaken, hreceived⟩
  | exception => exact hreceived ▸ stop_notMem_content texts
  | sentinel =>
      refine ⟨hreceived ▸ stop_notMem_content texts, Or.inr ⟨texts, ?_, ?_⟩⟩
      · exact congrArg (· ++ [_]) htaken
      · exact hreceived ▸ answer_content texts

/-- A chunk without a text of the answer leaves the answer as it is. -/
theorem AllRead.append (h : σ.AllRead) {chunk : Chunk} (hchunk : chunk.answer = none)
    (phase : ConsumerPhase) :
    { σ with received := σ.received ++ [chunk], consumer := phase }.AllRead := by
  obtain ⟨c, hc, hnotice⟩ | ⟨texts, htaken, hanswer⟩ := h
  · exact Or.inl ⟨c, List.mem_append_left _ hc, hnotice⟩
  · refine Or.inr ⟨texts, htaken, ?_⟩
    rw [List.filterMap_append, hanswer, List.filterMap_cons_none hchunk, List.filterMap_nil,
      List.append_nil]

theorem ConsumerOk.deliver {chunk : Chunk} (h : σ.ConsumerOk (.yielding chunk)) :
    { σ with received := σ.received ++ [chunk], consumer := afterYield chunk }.ConsumerOk
      (afterYield chunk) := by
  have hnotice : ∀ c phase, c.isNotice = true → c ≠ .stop → .stop ∉ σ.received →
      .stop ∉ σ.received ++ [c] ∧
        { σ with received := σ.received ++ [c], consumer := phase }.AllRead := by
    intro c phase hc hne hstop
    refine ⟨fun hmem => ?_, Or.inl ⟨c, List.mem_append_right _ List.mem_cons_self, hc⟩⟩
    obtain hmem | hmem := List.mem_append.mp hmem
    · exact hstop hmem
    · exact hne (List.mem_singleton.mp hmem).symm
  cases chunk with
  | content t =>
      obtain ⟨texts, htaken, hreceived⟩ := h
      refine ⟨texts ++ [t], ?_, ?_⟩
      · rw [List.map_append]
        exact htaken
      · rw [List.map_append, ← hreceived]
        rfl
  | generationError => exact hnotice _ _ rfl (by decide) h
  | timedOut => exact hnotice _ _ rfl (by decide) h
  | atCapacity => exact hnotice _ _ rfl (by decide) h
  | stop => exact h.2.append rfl _
  | done => exact h.append rfl _

theorem ConsumerOk.consumerStep (h : σ.ConsumerOk σ.consumer) (hstep : ConsumerStep σ event σ') :
    σ'.ConsumerOk σ'.consumer := by
  cases hstep with
  | began hphase =>
      rw [hphase] at h
      exact ⟨[], h⟩
  | rejected hphase =>
      rw [hphase] at h
      simp [ConsumerOk, h.2]
  | failed hphase =>
      rw [hphase] at h
      simp [ConsumerOk, h.2]
  | got item queue hphase =>
      rw [hphase] at h
      exact h.get
  | timedOut hphase =>
      rw [hphase] at h
      obtain ⟨texts, -, hreceived⟩ := h
      exact hreceived ▸ stop_notMem_content texts
  | delivered chunk hphase =>
      rw [hphase] at h
      exact h.deliver
  | left hphase =>
      rw [hphase] at h
      exact h
  | aborted => exact h.allRead
  | _ => exact h.congr rfl rfl

theorem ConsumerOk.step (h : σ.ConsumerOk σ.consumer) (hstep : σ.step event = some σ') :
    σ'.ConsumerOk σ'.consumer := by
  cases hworkers : event.isWorkers with
  | true =>
      obtain ⟨hconsumer, htaken, hreceived⟩ := (workerStep hworkers hstep).frame
      rw [hconsumer]
      exact h.congr htaken hreceived
  | false => exact h.consumerStep (Stream.consumerStep hworkers hstep)

end Consumer

section Worker
variable {σ σ' : Stream} {event : StreamEvent}

/-- Every text of the generator was put before the item that the worker has in hand. -/
def Handing (σ : Stream) : Item → Prop
  | .text t => σ.ended = false ∧ σ.sent ++ [.text t] = σ.produced.map Item.text
  | .exception => σ.ended = false ∧ σ.sent = σ.produced.map Item.text
  | .sentinel => (σ.ended = true ∧ σ.sent = σ.produced.map Item.text) ∨
      σ.sent = σ.produced.map Item.text ++ [.exception]

/-- The worker was told that nobody reads any more, and has not put the end. -/
def GivingUp (σ : Stream) : Prop := (σ.cancelEvent ∨ σ.loopClosed) ∧ .sentinel ∉ σ.sent

/-- What was put, by where the worker stands. -/
def WorkerOk (σ : Stream) : WorkerPhase → Prop
  | .notStarted => σ.ended = false ∧ σ.sent = [] ∧ σ.produced = []
  | .generating => σ.ended = false ∧ σ.sent = σ.produced.map Item.text
  | .calling item => σ.Handing item ∨ (item = .sentinel ∧ σ.GivingUp)
  | .waiting item => σ.Handing item
  | .exited => .sentinel ∉ σ.sent ∨
      (σ.ended = true ∧ σ.sent = σ.produced.map Item.text ++ [.sentinel]) ∨
      σ.sent = σ.produced.map Item.text ++ [.exception, .sentinel]

theorem sentinel_notMem_text (texts : List Text) : .sentinel ∉ texts.map Item.text := by simp

theorem Handing.sentinel_notMem {item : Item} (h : σ.Handing item) : .sentinel ∉ σ.sent := by
  cases item with
  | text t =>
      intro hmem
      apply sentinel_notMem_text σ.produced
      rw [← h.2]
      exact List.mem_append_left _ hmem
  | exception => exact h.2 ▸ sentinel_notMem_text σ.produced
  | sentinel =>
      obtain ⟨-, h⟩ | h := h
      · exact h ▸ sentinel_notMem_text σ.produced
      · simp [h]

/-- The item is in the queue. -/
theorem Handing.placed {item : Item} (h : σ.Handing item) {ok : Bool}
    (hok : ok = true ∨ item = .sentinel) :
    { σ with worker := afterPut item ok, queue := σ.queue ++ [item] }.WorkerOk
      (afterPut item ok) := by
  have hsent : ∀ worker, { σ with worker, queue := σ.queue ++ [item] }.sent = σ.sent ++ [item] :=
    fun _ => (List.append_assoc ..).symm
  cases item with
  | text t =>
      obtain rfl | hitem := hok
      · exact ⟨h.1, (hsent _).trans h.2⟩
      · cases hitem
  | exception =>
      left
      right
      exact (hsent _).trans (congrArg (· ++ [_]) h.2)
  | sentinel =>
      right
      obtain ⟨hended, h⟩ | h := h
      · exact Or.inl ⟨hended, (hsent _).trans (congrArg (· ++ [_]) h)⟩
      · right
        refine (hsent _).trans ?_
        rw [h, List.append_assoc]
        rfl

/-- The item is not, since nobody reads any more, or since the end was put too late. -/
theorem Handing.refused {item : Item} (h : σ.Handing item)
    (hstop : (σ.cancelEvent ∨ σ.loopClosed) ∨ item = .sentinel) :
    { σ with worker := afterPut item false }.WorkerOk (afterPut item false) := by
  have hnotMem := h.sentinel_notMem
  cases item with
  | sentinel => exact Or.inl hnotMem
  | text t => exact Or.inr ⟨rfl, hstop.resolve_right (by simp), hnotMem⟩
  | exception => exact Or.inr ⟨rfl, hstop.resolve_right (by simp), hnotMem⟩

theorem WorkerOk.congr {phase : WorkerPhase} (h : σ.WorkerOk phase)
    (hproduced : σ'.produced = σ.produced) (hended : σ'.ended = σ.ended)
    (hsent : σ'.sent = σ.sent)
    (hstop : σ.cancelEvent ∨ σ.loopClosed → σ'.cancelEvent ∨ σ'.loopClosed) :
    σ'.WorkerOk phase := by
  cases phase with
  | calling item =>
      apply h.imp
      · intro h
        unfold Handing at *
        rwa [hproduced, hended, hsent]
      · rintro ⟨hitem, hgiving⟩
        exact ⟨hitem, hstop hgiving.1, hsent ▸ hgiving.2⟩
  | _ =>
      unfold WorkerOk Handing at *
      rwa [hproduced, hended, hsent]

/-- A step of the worker keeps what was put in order, unless a put of something to read
times out. -/
theorem WorkerOk.workerStep (h : σ.WorkerOk σ.worker) (hguard : σ.PutsInTime event)
    (hstep : WorkerStep σ event σ') : σ'.WorkerOk σ'.worker := by
  cases hstep with
  | produced t hphase =>
      rw [hphase] at h
      refine Or.inl ⟨h.1, ?_⟩
      rw [List.map_append, ← h.2]
      rfl
  | ended hphase =>
      rw [hphase] at h
      exact Or.inl (Or.inl ⟨rfl, h.2⟩)
  | raised hphase =>
      rw [hphase] at h
      exact Or.inl h
  | givenUp item hphase hstop =>
      rw [hphase] at h
      obtain h | ⟨rfl, -, hnotMem⟩ := h
      · exact h.refused (Or.inl hstop)
      · exact Or.inl hnotMem
  | scheduled item hphase hstop =>
      rw [hphase] at h
      exact h.resolve_right fun hgiving => hstop hgiving.2.1
  | put item hphase =>
      rw [hphase] at h
      exact Handing.placed h (Or.inl rfl)
  | lost item hphase =>
      have hitem := WorkerPhase.waiting.inj (hphase.symm.trans (hguard _ rfl))
      rw [hphase] at h
      exact Handing.refused h (Or.inr hitem)
  | late item hphase =>
      have hitem := WorkerPhase.waiting.inj (hphase.symm.trans (hguard _ rfl))
      rw [hphase] at h
      exact Handing.placed h (Or.inr hitem)
  | cancelled item hphase hclosed =>
      rw [hphase] at h
      exact Handing.refused h (Or.inl (Or.inr hclosed))

theorem WorkerOk.step (h : σ.WorkerOk σ.worker) (hguard : σ.PutsInTime event)
    (hstep : σ.step event = some σ') : σ'.WorkerOk σ'.worker := by
  cases hworkers : event.isWorkers with
  | true => exact h.workerStep hguard (Stream.workerStep hworkers hstep)
  | false =>
      by_cases hbegin : event = .begin
      · subst hbegin
        cases consumerStep hworkers hstep with
        | began hphase hworker =>
            rw [hworker] at h
            obtain ⟨hended, hsent, hproduced⟩ := h
            refine ⟨hended, hsent.trans ?_⟩
            rw [hproduced]
            rfl
      · obtain ⟨hworker, hproduced, hended, hsent, hstop⟩ :=
          (consumerStep hworkers hstep).frame hbegin
        rw [hworker]
        exact h.congr hproduced hended hsent hstop

end Worker

section Runs
variable {σ : Stream} {events : List StreamEvent}

theorem consumerOk_run (h : run step start events = some σ) : σ.ConsumerOk σ.consumer :=
  run_invariant (I := fun σ => σ.ConsumerOk σ.consumer) (fun _ _ _ hok hstep => hok.step hstep)
    ⟨rfl, rfl⟩ h

theorem workerOk_run (hguard : Guarded step PutsInTime start events)
    (h : run step start events = some σ) : σ.WorkerOk σ.worker :=
  hguard.invariant (I := fun σ => σ.WorkerOk σ.worker)
    (fun _ _ _ hok hG hstep => hok.step hG hstep) ⟨rfl, rfl, rfl⟩ h

/-- The first item that is not a text tells where the texts end. -/
theorem map_text_append_inj {texts texts' : List Text} {item item' : Item}
    {queue queue' : List Item} (hitem : ∀ t, item ≠ .text t) (hitem' : ∀ t, item' ≠ .text t)
    (h : texts.map Item.text ++ item :: queue = texts'.map Item.text ++ item' :: queue') :
    texts = texts' ∧ item = item' := by
  induction texts generalizing texts' with
  | nil =>
      cases texts' with
      | nil => exact ⟨rfl, (List.cons.inj h).1⟩
      | cons t texts' => exact absurd (List.cons.inj h).1 (hitem t)
  | cons t texts ih =>
      cases texts' with
      | nil => exact absurd (List.cons.inj h).1.symm (hitem' t)
      | cons t' texts' =>
          obtain ⟨hhead, htail⟩ := List.cons.inj h
          obtain ⟨rfl, hlast⟩ := ih htail
          cases hhead
          exact ⟨rfl, hlast⟩

/-- Where no put times out, an answer that was read to its end is complete. -/
theorem complete_of_putsInTime (hguard : Guarded step PutsInTime start events)
    (h : run step start events = some σ) (hfinished : σ.Finished) : σ.Complete := by
  obtain ⟨c, hc, hnotice⟩ | ⟨texts, htaken, hanswer⟩ :=
    (consumerOk_run h).allRead hfinished.1
  · rw [hfinished.2 c hc] at hnotice
    cases hnotice
  · have hsent : σ.sent = texts.map Item.text ++ .sentinel :: σ.queue := by
      rw [sent, htaken, List.append_assoc]
      rfl
    have hmem : .sentinel ∈ σ.sent := by simp [hsent]
    have hworker := workerOk_run hguard h
    cases hphase : σ.worker with
    | exited =>
        rw [hphase] at hworker
        obtain hnotMem | ⟨hended, hput⟩ | hput := hworker
        · exact absurd hmem hnotMem
        · refine ⟨hended, hanswer.trans ?_⟩
          rw [hsent] at hput
          exact (map_text_append_inj (by simp) (by simp) hput).1
        · rw [hsent] at hput
          cases (map_text_append_inj (by simp) (by simp) hput).2
    | notStarted =>
        rw [hphase] at hworker
        rw [hworker.2.1] at hmem
        cases hmem
    | generating =>
        rw [hphase] at hworker
        exact absurd (hworker.2 ▸ hmem) (sentinel_notMem_text _)
    | calling item =>
        rw [hphase] at hworker
        obtain hitem | ⟨-, -, hnotMem⟩ := hworker
        · exact absurd hmem hitem.sentinel_notMem
        · exact absurd hmem hnotMem
    | waiting item =>
        rw [hphase] at hworker
        have hitem : σ.Handing item := hworker
        exact absurd hmem hitem.sentinel_notMem

/-- The worker left its loop before the generator came to its end. -/
def Truncated (σ : Stream) : Prop :=
  σ.ended = false ∧ (σ.worker = .calling .sentinel ∨ σ.worker = .waiting .sentinel ∨
    σ.worker = .exited)

theorem Truncated.workerStep {σ' : Stream} {event : StreamEvent} (h : σ.Truncated)
    (hstep : WorkerStep σ event σ') : σ'.Truncated := by
  obtain ⟨hended, hphase⟩ := h
  cases hstep with
  | givenUp item hcalling =>
      obtain rfl : item = .sentinel := by simpa [hcalling] using hphase
      exact ⟨hended, Or.inr (Or.inr rfl)⟩
  | scheduled item hcalling =>
      obtain rfl : item = .sentinel := by simpa [hcalling] using hphase
      exact ⟨hended, Or.inr (Or.inl rfl)⟩
  | produced t hgenerating => simp [hgenerating] at hphase
  | ended hgenerating => simp [hgenerating] at hphase
  | raised hgenerating => simp [hgenerating] at hphase
  | _ item hwaiting =>
      obtain rfl : item = .sentinel := by simpa [hwaiting] using hphase
      exact ⟨hended, Or.inr (Or.inr rfl)⟩

theorem Truncated.step {σ' : Stream} {event : StreamEvent} (h : σ.Truncated)
    (hstep : σ.step event = some σ') : σ'.Truncated := by
  cases hworkers : event.isWorkers with
  | true => exact h.workerStep (Stream.workerStep hworkers hstep)
  | false =>
      obtain ⟨hended, hphase⟩ := h
      by_cases hbegin : event = .begin
      · subst hbegin
        cases consumerStep hworkers hstep with
        | began hstart hworker => simp [hworker] at hphase
      · obtain ⟨hworker, -, hsame, -⟩ := (consumerStep hworkers hstep).frame hbegin
        exact ⟨hsame.trans hended, hworker ▸ hphase⟩

/-- A put of something to read that times out ends the answer early. -/
theorem truncated_of_timeout {σ' : Stream} {event : StreamEvent} (h : σ.WorkerOk σ.worker)
    (hguard : ¬ σ.PutsInTime event) (hstep : σ.step event = some σ') : σ'.Truncated := by
  obtain ⟨placed, hlate⟩ := not_forall.mp hguard
  obtain ⟨rfl, hne⟩ := Classical.not_imp.mp hlate
  have hread : ∀ item, σ.worker = .waiting item →
      σ.ended = false ∧ afterPut item false = .calling .sentinel := by
    intro item hphase
    rw [hphase] at h hne
    cases item with
    | text t => exact ⟨h.1, rfl⟩
    | exception => exact ⟨h.1, rfl⟩
    | sentinel => exact absurd rfl hne
  cases workerStep rfl hstep with
  | lost item hphase => exact ⟨(hread item hphase).1, Or.inl (hread item hphase).2⟩
  | late item hphase => exact ⟨(hread item hphase).1, Or.inl (hread item hphase).2⟩

/-- An answer that was read to its end without a notice is complete if and only if no
put of a text or of an exception timed out. -/
theorem complete_iff_putsInTime (h : run step start events = some σ) (hfinished : σ.Finished) :
    σ.Complete ↔ Guarded step PutsInTime start events := by
  refine ⟨fun hcomplete => ?_, fun hguard => complete_of_putsInTime hguard h hfinished⟩
  by_contra hguard
  obtain ⟨before, event, later, t, u, -, ht, hbefore, hlate, hu, hrest⟩ :=
    exists_of_not_guarded h hguard
  have htruncated := run_invariant (fun _ _ _ hok hstep => Truncated.step hok hstep)
    (truncated_of_timeout (workerOk_run hbefore ht) hlate hu) hrest
  exact Bool.false_ne_true (htruncated.1.symm.trans hcomplete.1)

/-- An answer of two texts. -/
def shortAnswer : List StreamEvent :=
  [.begin, .produce (text "Hello"), .call, .putSucceeds, .get, .deliver,
    .produce (text " world"), .call, .putSucceeds, .generationEnds, .call, .putSucceeds,
    .get, .deliver, .get, .leave, .deliver, .deliver]

theorem complete_iff_putsInTime_sample : ∃ σ,
    run step start shortAnswer = some σ ∧ σ.Finished ∧ σ.Complete := by
  have hrun : (run step start shortAnswer).any (fun σ => σ.Finished) = true := by decide +kernel
  obtain ⟨σ, hσ, hfinished⟩ := (Option.any_eq_true ..).mp hrun
  have hfinished := of_decide_eq_true hfinished
  refine ⟨σ, hσ, hfinished, (complete_iff_putsInTime hσ hfinished).mpr ?_⟩
  apply guarded_of_forall
  simp [shortAnswer, PutsInTime]

/-- The consumer stalls until the put of the 33rd text has timed out, then reads on, so
that there is room for the end. -/
def stalledAnswer : List StreamEvent :=
  .begin :: (List.replicate maxsize [.produce (text "x"), .call, .putSucceeds]).flatten ++
    [.produce (text "y"), .call, .putTimesOut false, .get, .deliver, .call, .putSucceeds] ++
    (List.replicate (maxsize - 1) [.get, .deliver]).flatten ++ [.get, .leave, .deliver, .deliver]

/-- The client then gets the end without a notice, and not the last text. -/
theorem stalled_answer_truncated : ∃ σ,
    run step start stalledAnswer = some σ ∧ σ.Finished ∧ ¬ σ.Complete := by
  have hrun : (run step start stalledAnswer).any (fun σ => σ.Finished ∧ ¬ σ.Complete) =
      true := by decide +kernel
  obtain ⟨σ, hσ, htruncated⟩ := (Option.any_eq_true ..).mp hrun
  exact ⟨σ, hσ, of_decide_eq_true htruncated⟩

end Runs

end Stream

end LocalGraphRag.Web
