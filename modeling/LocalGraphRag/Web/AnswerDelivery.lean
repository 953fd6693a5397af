import LocalGraphRag.Rag.OllamaStream
import LocalGraphRag.Web.EventStream

/-!
# From the reply to the page

What the page shows of an answer, whatever the worker, the queue, the network and the client
do: the first texts that the generator yielded, in order and once, and behind them at most one
notice. The reply of Ollama, the machine of the response and the body on the wire meet here.

## Implementation notes

The machine leaves open what the generator yields. A run follows a reply when the events of its
generator are those of the reply, as far as it went.
-/

namespace LocalGraphRag.Web

open LocalGraphRag.Python LocalGraphRag.Systems LocalGraphRag.Browser LocalGraphRag.Rag

/-- The text that the generator yields at an event. -/
def StreamEvent.yielded : StreamEvent → Option Text
  | produce t => some t
  | _ => none

/-- What the generator does at an event. -/
def StreamEvent.generator : StreamEvent → Option (Json ⊕ StreamEnd)
  | produce t => some (.inl (.str t))
  | generationEnds => some (.inr .returned)
  | generationRaises => some (.inr .raised)
  | _ => none

/-- The generator of the run yields what the reply makes it yield, as far as it went. -/
def Follows (events : List StreamEvent) (reply : List Json × StreamEnd) : Prop :=
  events.filterMap StreamEvent.generator <+: reply.1.map .inl ++ [.inr reply.2]

namespace Stream

section Worker
variable {σ σ' : Stream} {event : StreamEvent}

/-- What was put: texts of the generator from the first on, and nothing but this behind them. -/
def Put (σ : Stream) (rest : List Item) : Prop :=
  ∃ texts : List Text, texts <+: σ.produced ∧ σ.sent = texts.map Item.text ++ rest

/-- What was put before the item that the worker has in hand. -/
def InHand (σ : Stream) : Item → Prop
  | .text t => σ.sent ++ [.text t] = σ.produced.map Item.text
  | .exception => σ.sent = σ.produced.map Item.text
  | .sentinel => σ.Put [] ∨ σ.Put [.exception]

/-- What was put, by where the worker stands. -/
def PutInOrder (σ : Stream) : WorkerPhase → Prop
  | .notStarted => σ.sent = [] ∧ σ.produced = []
  | .generating => σ.sent = σ.produced.map Item.text
  | .calling item => σ.InHand item
  | .waiting item => σ.InHand item
  | .exited => ∃ rest, (∀ t, .text t ∉ rest) ∧ σ.Put rest

theorem PutInOrder.put (h : σ.PutInOrder σ.worker) :
    ∃ rest, (∀ t, .text t ∉ rest) ∧ σ.Put rest := by
  have hall : σ.sent = σ.produced.map Item.text → σ.Put [] := by
    intro hsent
    exact ⟨σ.produced, List.prefix_rfl, by rw [hsent, List.append_nil]⟩
  have hhand : ∀ item, σ.InHand item → ∃ rest, (∀ t, .text t ∉ rest) ∧ σ.Put rest := by
    intro item hitem
    cases item with
    | text t =>
        obtain ⟨texts, last, hproduced, htexts, -⟩ := List.map_eq_append_iff.mp hitem.symm
        exact ⟨[], by simp, texts, ⟨last, hproduced.symm⟩, by rw [htexts, List.append_nil]⟩
    | exception => exact ⟨[], by simp, hall hitem⟩
    | sentinel =>
        obtain hput | hput := hitem
        · exact ⟨_, by simp, hput⟩
        · exact ⟨_, by simp, hput⟩
  cases hphase : σ.worker with
  | notStarted =>
      rw [hphase] at h
      exact ⟨[], by simp, [], List.nil_prefix, h.1⟩
  | generating =>
      rw [hphase] at h
      exact ⟨[], by simp, hall h⟩
  | calling item =>
      rw [hphase] at h
      exact hhand item h
  | waiting item =>
      rw [hphase] at h
      exact hhand item h
  | exited =>
      rw [hphase] at h
      exact h

theorem InHand.placed {item : Item} (h : σ.InHand item) (ok : Bool) :
    { σ with worker := afterPut item ok, queue := σ.queue ++ [item] }.PutInOrder
      (afterPut item ok) := by
  have hsent : ∀ worker, { σ with worker, queue := σ.queue ++ [item] }.sent = σ.sent ++ [item] :=
    fun _ => (List.append_assoc ..).symm
  cases item with
  | text t =>
      cases ok with
      | true => exact (hsent _).trans h
      | false => exact Or.inl ⟨σ.produced, List.prefix_rfl, by rw [hsent, h, List.append_nil]⟩
  | exception => exact Or.inr ⟨σ.produced, List.prefix_rfl, (hsent _).trans (congrArg (· ++ _) h)⟩
  | sentinel =>
      obtain ⟨texts, hprefix, h⟩ | ⟨texts, hprefix, h⟩ := h
      · exact ⟨[.sentinel], by simp, texts, hprefix, by rw [hsent, h, List.append_nil]⟩
      · refine ⟨[.exception, .sentinel], by simp, texts, hprefix, ?_⟩
        rw [hsent, h, List.append_assoc]
        rfl

theorem InHand.refused {item : Item} (h : σ.InHand item) :
    { σ with worker := afterPut item false }.PutInOrder (afterPut item false) := by
  cases item with
  | text t =>
      obtain ⟨texts, last, hproduced, htexts, -⟩ := List.map_eq_append_iff.mp h.symm
      exact Or.inl ⟨texts, ⟨last, hproduced.symm⟩, htexts.symm.trans (List.append_nil _).symm⟩
  | exception =>
      exact Or.inl ⟨σ.produced, List.prefix_rfl, h.trans (List.append_nil _).symm⟩
  | sentinel =>
      obtain h | h := h
      · exact ⟨_, by simp, h⟩
      · exact ⟨_, by simp, h⟩

theorem PutInOrder.congr {phase : WorkerPhase} (h : σ.PutInOrder phase)
    (hproduced : σ'.produced = σ.produced) (hsent : σ'.sent = σ.sent) : σ'.PutInOrder phase := by
  cases phase with
  | calling item | waiting item =>
      unfold PutInOrder at *
      cases item <;> simpa only [InHand, Put, hproduced, hsent] using h
  | _ =>
      unfold PutInOrder at *
      simpa only [Put, hproduced, hsent] using h

theorem PutInOrder.step (h : σ.PutInOrder σ.worker) (hstep : σ.step event = some σ') :
    σ'.PutInOrder σ'.worker := by
  cases hworkers : event.isWorkers with
  | true =>
      cases workerStep hworkers hstep with
      | produced t hphase =>
          rw [hphase] at h
          change σ.sent ++ [.text t] = (σ.produced ++ [t]).map Item.text
          rw [List.map_append, ← h]
          rfl
      | ended hphase =>
          rw [hphase] at h
          exact Or.inl ⟨σ.produced, List.prefix_rfl, h.trans (List.append_nil _).symm⟩
      | raised hphase =>
          rw [hphase] at h
          exact h
      | scheduled item hphase =>
          rw [hphase] at h
          exact h
      | put item hphase =>
          rw [hphase] at h
          exact InHand.placed h true
      | late item hphase =>
          rw [hphase] at h
          exact InHand.placed h false
      | _ item hphase =>
          rw [hphase] at h
          exact InHand.refused h
  | false =>
      by_cases hbegin : event = .begin
      · subst hbegin
        cases consumerStep hworkers hstep with
        | began hphase hworker =>
            rw [hworker] at h
            change σ.sent = σ.produced.map Item.text
            rw [h.1, h.2]
            rfl
      · obtain ⟨hworker, hproduced, -, hsent, -⟩ := (consumerStep hworkers hstep).frame hbegin
        rw [hworker]
        exact h.congr hproduced hsent

end Worker

section Consumer
variable {σ σ' : Stream} {event : StreamEvent}

/-- The client has texts that were taken, from the first on, and this behind them. -/
def Delivered (σ : Stream) (rest : List Chunk) : Prop :=
  ∃ texts : List Text,
    σ.received = texts.map Chunk.content ++ rest ∧ texts.map Item.text <+: σ.taken

/-- At most one notice, and nothing else. -/
def IsNotices (notices : List Chunk) : Prop :=
  notices.length ≤ 1 ∧ ∀ c ∈ notices, c.isNotice = true

/-- What the client has, by where the response stands. -/
def DeliveredInOrder (σ : Stream) : ConsumerPhase → Prop
  | .starting => σ.taken = [] ∧ σ.received = []
  | .reading => ∃ texts : List Text, σ.taken = texts.map Item.text ∧
      σ.received = texts.map Chunk.content
  | .yielding (.content t) => ∃ texts : List Text, σ.taken = texts.map Item.text ++ [.text t] ∧
      σ.received = texts.map Chunk.content
  | .yielding .stop => ∃ notices, IsNotices notices ∧ σ.Delivered notices
  | .yielding .done => ∃ notices, IsNotices notices ∧ σ.Delivered (notices ++ [.stop])
  | .yielding _ => σ.Delivered []
  | .leaving => ∃ notices, IsNotices notices ∧ σ.Delivered notices
  | .finished => ∃ notices, IsNotices notices ∧ σ.Delivered (notices ++ [.stop, .done])
  | .aborted => ∃ notices tail, IsNotices notices ∧ tail <+: [Chunk.stop, .done] ∧
      σ.Delivered (notices ++ tail)

theorem isNotices_nil : IsNotices [] := ⟨Nat.zero_le 1, by simp⟩

theorem delivered_of_reading {texts : List Text} (htaken : texts.map Item.text <+: σ.taken)
    (hreceived : σ.received = texts.map Chunk.content) : σ.Delivered [] :=
  ⟨texts, hreceived.trans (List.append_nil _).symm, htaken⟩

/-- Whatever happens, the client has texts, at most one notice and an end. -/
theorem DeliveredInOrder.delivered (h : σ.DeliveredInOrder σ.consumer) :
    ∃ notices tail, IsNotices notices ∧ tail <+: [Chunk.stop, .done] ∧
      σ.Delivered (notices ++ tail) := by
  have hnil : σ.Delivered [] → ∃ notices tail, IsNotices notices ∧ tail <+: [Chunk.stop, .done] ∧
      σ.Delivered (notices ++ tail) :=
    fun hdelivered => ⟨[], [], isNotices_nil, List.nil_prefix, hdelivered⟩
  have hnotices : (∃ notices, IsNotices notices ∧ σ.Delivered notices) → ∃ notices tail,
      IsNotices notices ∧ tail <+: [Chunk.stop, .done] ∧ σ.Delivered (notices ++ tail) := by
    rintro ⟨notices, hone, hdelivered⟩
    exact ⟨notices, [], hone, List.nil_prefix, by rwa [List.append_nil]⟩
  cases hphase : σ.consumer with
  | starting =>
      rw [hphase] at h
      exact hnil ⟨[], h.2, List.nil_prefix⟩
  | reading =>
      rw [hphase] at h
      obtain ⟨texts, htaken, hreceived⟩ := h
      exact hnil (delivered_of_reading (htaken ▸ List.prefix_rfl) hreceived)
  | yielding chunk =>
      rw [hphase] at h
      cases chunk with
      | content t =>
          obtain ⟨texts, htaken, hreceived⟩ := h
          exact hnil (delivered_of_reading (htaken ▸ List.prefix_append _ _) hreceived)
      | stop => exact hnotices h
      | done =>
          obtain ⟨notices, hone, hdelivered⟩ := h
          exact ⟨notices, [.stop], hone, List.prefix_append [Chunk.stop] [.done], hdelivered⟩
      | _ => exact hnil h
  | leaving =>
      rw [hphase] at h
      exact hnotices h
  | finished =>
      rw [hphase] at h
      obtain ⟨notices, hone, hdelivered⟩ := h
      exact ⟨notices, _, hone, List.prefix_rfl, hdelivered⟩
  | aborted =>
      rw [hphase] at h
      exact h

theorem DeliveredInOrder.congr {phase : ConsumerPhase} (h : σ.DeliveredInOrder phase)
    (htaken : σ'.taken = σ.taken) (hreceived : σ'.received = σ.received) :
    σ'.DeliveredInOrder phase := by
  unfold DeliveredInOrder Delivered at *
  rw [htaken, hreceived]
  exact h

theorem Delivered.append {rest : List Chunk} (h : σ.Delivered rest) (chunk : Chunk)
    (phase : ConsumerPhase) :
    { σ with received := σ.received ++ [chunk], consumer := phase }.Delivered
      (rest ++ [chunk]) := by
  obtain ⟨texts, hreceived, htaken⟩ := h
  exact ⟨texts, by rw [hreceived, List.append_assoc], htaken⟩

theorem DeliveredInOrder.deliver {chunk : Chunk} (h : σ.DeliveredInOrder (.yielding chunk)) :
    { σ with received := σ.received ++ [chunk], consumer := afterYield chunk }.DeliveredInOrder
      (afterYield chunk) := by
  have hnotice : ∀ (c : Chunk) (phase : ConsumerPhase), c.isNotice = true → σ.Delivered [] →
      ∃ notices, IsNotices notices ∧
        { σ with received := σ.received ++ [c], consumer := phase }.Delivered notices :=
    fun c phase hc hdelivered => ⟨[c], ⟨le_rfl, by simpa using hc⟩, hdelivered.append c phase⟩
  cases chunk with
  | content t =>
      obtain ⟨texts, htaken, hreceived⟩ := h
      refine ⟨texts ++ [t], ?_, ?_⟩
      · rw [List.map_append]
        exact htaken
      · rw [List.map_append, ← hreceived]
        rfl
  | generationError => exact hnotice _ _ rfl h
  | timedOut => exact hnotice _ _ rfl h
  | atCapacity => exact hnotice _ _ rfl h
  | stop =>
      obtain ⟨notices, hone, hdelivered⟩ := h
      exact ⟨notices, hone, hdelivered.append _ _⟩
  | done =>
      obtain ⟨notices, hone, hdelivered⟩ := h
      refine ⟨notices, hone, ?_⟩
      have happend := hdelivered.append .done .finished
      rwa [List.append_assoc] at happend

theorem DeliveredInOrder.get {item : Item} {queue : List Item} (h : σ.DeliveredInOrder .reading) :
    { σ with queue, taken := σ.taken ++ [item], consumer := afterGet item }.DeliveredInOrder
      (afterGet item) := by
  obtain ⟨texts, htaken, hreceived⟩ := h
  have hdelivered (consumer : ConsumerPhase) :
      { σ with queue, taken := σ.taken ++ [item], consumer }.Delivered [] := by
    refine delivered_of_reading ?_ hreceived
    rw [← htaken]
    exact List.prefix_append _ _
  cases item with
  | text t => exact ⟨texts, congrArg (· ++ [_]) htaken, hreceived⟩
  | exception => exact hdelivered _
  | sentinel => exact ⟨[], isNotices_nil, hdelivered _⟩

theorem DeliveredInOrder.consumerStep (h : σ.DeliveredInOrder σ.consumer)
    (hstep : ConsumerStep σ event σ') : σ'.DeliveredInOrder σ'.consumer := by
  cases hstep with
  | began hphase =>
      rw [hphase] at h
      exact ⟨[], h⟩
  | rejected hphase =>
      rw [hphase] at h
      exact ⟨[], h.2, List.nil_prefix⟩
  | failed hphase =>
      rw [hphase] at h
      exact ⟨[], [], isNotices_nil, List.nil_prefix, [], h.2, List.nil_prefix⟩
  | got item queue hphase =>
      rw [hphase] at h
      exact h.get
  | timedOut hphase =>
      rw [hphase] at h
      obtain ⟨texts, htaken, hreceived⟩ := h
      exact delivered_of_reading (htaken ▸ List.prefix_rfl) hreceived
  | delivered chunk hphase =>
      rw [hphase] at h
      exact h.deliver
  | left hphase =>
      rw [hphase] at h
      exact h
  | aborted => exact h.delivered
  | _ => exact h.congr rfl rfl

theorem DeliveredInOrder.step (h : σ.DeliveredInOrder σ.consumer)
    (hstep : σ.step event = some σ') : σ'.DeliveredInOrder σ'.consumer := by
  cases hworkers : event.isWorkers with
  | true =>
      obtain ⟨hconsumer, htaken, hreceived⟩ := (workerStep hworkers hstep).frame
      rw [hconsumer]
      exact h.congr htaken hreceived
  | false => exact h.consumerStep (Stream.consumerStep hworkers hstep)

end Consumer

section Runs
variable {σ : Stream} {events : List StreamEvent}

theorem prefix_of_map_text {texts texts' : List Text} {rest : List Item}
    (hrest : ∀ t, .text t ∉ rest)
    (h : texts.map Item.text <+: texts'.map Item.text ++ rest) : texts <+: texts' := by
  induction texts generalizing texts' with
  | nil => exact List.nil_prefix
  | cons t texts ih =>
      cases texts' with
      | nil => exact absurd (h.subset List.mem_cons_self) (hrest t)
      | cons t' texts' =>
          obtain ⟨hhead, htail⟩ := List.cons_prefix_cons.mp h
          cases hhead
          exact List.cons_prefix_cons.mpr ⟨rfl, ih htail⟩

/-- In every state that a run reaches, the client has the first texts of the generator, in
order and once, behind them at most one notice, and then the end. -/
theorem received_eq (h : run step start events = some σ) :
    ∃ (texts : List Text) (notices tail : List Chunk),
      σ.received = texts.map Chunk.content ++ notices ++ tail ∧ texts <+: σ.produced ∧
        IsNotices notices ∧ tail <+: [Chunk.stop, .done] := by
  have hput : σ.PutInOrder σ.worker :=
    run_invariant (I := fun σ => σ.PutInOrder σ.worker) (fun _ _ _ hok hstep => hok.step hstep)
      ⟨rfl, rfl⟩ h
  have hdelivered : σ.DeliveredInOrder σ.consumer :=
    run_invariant (I := fun σ => σ.DeliveredInOrder σ.consumer)
      (fun _ _ _ hok hstep => hok.step hstep) ⟨rfl, rfl⟩ h
  obtain ⟨rest, hrest, texts', hproduced, hsent⟩ := hput.put
  obtain ⟨notices, tail, hnotices, htail, texts, hreceived, htaken⟩ := hdelivered.delivered
  refine ⟨texts, notices, tail, ?_, ?_, hnotices, htail⟩
  · rw [hreceived, List.append_assoc]
  · refine (prefix_of_map_text hrest ?_).trans hproduced
    rw [← hsent]
    exact htaken.trans (List.prefix_append _ _)

theorem deltas_append (chunks chunks' : List Chunk) :
    deltas (chunks ++ chunks') = deltas chunks ++ deltas chunks' := by
  rw [deltas, List.filterMap_append, List.filter_append]
  rfl

theorem deltas_content (texts : List Text) :
    deltas (texts.map Chunk.content) = texts.filter (· ≠ []) := by
  have hdelta : (texts.map Chunk.content).filterMap Chunk.delta = texts := by
    rw [List.filterMap_map]
    exact List.filterMap_some
  rw [deltas, hdelta]

theorem deltas_tail {tail : List Chunk} (h : tail <+: [Chunk.stop, .done]) : deltas tail = [] := by
  apply List.filter_eq_nil_iff.mpr
  intro t ht
  obtain ⟨chunk, hchunk, hdelta⟩ := List.mem_filterMap.mp ht
  have hmem := h.subset hchunk
  simp only [List.mem_cons, List.not_mem_nil, or_false] at hmem
  obtain rfl | rfl := hmem <;> cases hdelta

end Runs

section Generator
variable {σ σ' : Stream} {event : StreamEvent} {events : List StreamEvent}

/-- The record of the generator is that of its events. -/
theorem step_produced (h : σ.step event = some σ') :
    σ'.produced = σ.produced ++ event.yielded.toList ∧
      (σ'.ended = true → σ.ended = true ∨ event = .generationEnds) := by
  cases hworkers : event.isWorkers with
  | true =>
      cases workerStep hworkers h with
      | produced t => exact ⟨rfl, Or.inl⟩
      | ended => exact ⟨(List.append_nil _).symm, fun _ => Or.inr rfl⟩
      | _ => exact ⟨(List.append_nil _).symm, Or.inl⟩
  | false => cases consumerStep hworkers h <;> exact ⟨(List.append_nil _).symm, Or.inl⟩

theorem run_produced {s : Stream} (h : run step s events = some σ) :
    σ.produced = s.produced ++ events.filterMap StreamEvent.yielded ∧
      (σ.ended = true → s.ended = true ∨ .generationEnds ∈ events) := by
  induction events generalizing s with
  | nil =>
      cases h
      exact ⟨(List.append_nil _).symm, Or.inl⟩
  | cons event events ih =>
      obtain ⟨t, ht, h⟩ := run_cons_eq_some.mp h
      obtain ⟨hproduced, hended⟩ := step_produced ht
      obtain ⟨hrest, hlater⟩ := ih h
      constructor
      · rw [hrest, hproduced, List.append_assoc, List.filterMap_cons]
        cases event.yielded <;> rfl
      · intro hσ
        obtain ht | hmem := hlater hσ
        · obtain hs | rfl := hended ht
          · exact Or.inl hs
          · exact Or.inr List.mem_cons_self
        · exact Or.inr (List.mem_cons_of_mem _ hmem)

/-- The generator has yielded a part of the reply, and all of it once it has ended. -/
theorem produced_of_follows {reply : List Json × StreamEnd} (h : run step start events = some σ)
    (hfollows : Follows events reply) : σ.produced.map Json.str <+: reply.1 ∧
      (σ.ended = true → σ.produced.map Json.str = reply.1 ∧ reply.2 = .returned) := by
  obtain ⟨hproduced, hended⟩ := run_produced h
  have hlefts : (reply.1.map Sum.inl ++ [.inr reply.2] : List (Json ⊕ StreamEnd)).filterMap
      Sum.getLeft? = reply.1 := by
    rw [List.filterMap_append, List.filterMap_map]
    exact (List.append_nil _).trans List.filterMap_some
  have hyields : (events.filterMap StreamEvent.generator).filterMap Sum.getLeft? =
      σ.produced.map Json.str := by
    rw [hproduced, start, List.nil_append, List.filterMap_filterMap, List.map_filterMap]
    apply List.filterMap_congr
    intro event _
    cases event <;> rfl
  constructor
  · rw [← hyields, ← hlefts]
    exact hfollows.filterMap _
  · intro hσ
    have hmem : .inr .returned ∈ events.filterMap StreamEvent.generator := by
      obtain hstart | hmem := hended hσ
      · cases hstart
      · exact List.mem_filterMap.mpr ⟨_, hmem, rfl⟩
    obtain hall | hpart := List.prefix_concat_iff.mp hfollows
    · rw [← hyields, hall, hlefts]
      refine ⟨rfl, ?_⟩
      rw [hall] at hmem
      obtain hmem | hmem := List.mem_append.mp hmem
      · simp at hmem
      · exact (Sum.inr.inj (List.mem_singleton.mp hmem)).symm
    · have hleft := hpart.subset hmem
      simp at hleft

end Generator

end Stream

section Page
variable {σ : Stream} {events : List StreamEvent} {requestId model : Text} {created : ℕ}
variable {reads : List Bytes}

/-- Whenever the page looks, it has the first texts of the reply, in order and once, and behind
them at most one notice. -/
theorem page_shows_prefix {reply : List Json × StreamEnd}
    (h : run Stream.step Stream.start events = some σ) (hfollows : Follows events reply)
    (hreads : reads.flatten <+: body requestId created model σ.received) :
    ∃ texts notices : List Text, texts.map Json.str <+: reply.1 ∧ notices.length ≤ 1 ∧
      (∀ n ∈ notices, ∃ c : Chunk, c.isNotice = true ∧ c.delta = some n) ∧
        iterSSEDeltas .new [] reads <+:
          ((texts ++ notices).filter (· ≠ [])).map fun t => .str (utf16 t) := by
  obtain ⟨texts, notices, tail, hreceived, hproduced, hnotices, htail⟩ := Stream.received_eq h
  have hdeltas : deltas σ.received =
      (texts ++ notices.filterMap Chunk.delta).filter (· ≠ []) := by
    rw [hreceived, Stream.deltas_append, Stream.deltas_append, Stream.deltas_content,
      Stream.deltas_tail htail, List.append_nil, List.filter_append]
    rfl
  refine ⟨texts, notices.filterMap Chunk.delta, ?_, ?_, ?_, ?_⟩
  · exact (hproduced.map _).trans (Stream.produced_of_follows h hfollows).1
  · exact (List.length_filterMap_le _ _).trans hnotices.1
  · intro n hn
    obtain ⟨c, hc, hdelta⟩ := List.mem_filterMap.mp hn
    exact ⟨c, hnotices.2 c hc, hdelta⟩
  · rw [← hdeltas]
    exact iterSSEDeltas_prefix hreads

/-- An answer that was read to its end, with no put that timed out, is the text of the reply. -/
theorem iterSSEDeltas_reply {recursionLimit : ℕ} {raises : Text → Bool}
    {connectionEnd : ConnectionEnd} {pieces : List (StreamLine × Text)} {last : StreamLine}
    {t : Text} {lines : List StreamLine}
    (hpieces : ∀ p ∈ pieces, readPiece recursionLimit p.1 = some (p.2, false))
    (hlast : readPiece recursionLimit last = some (t, true))
    (hfollows : Follows events (streamGenerate recursionLimit raises connectionEnd
      (pieces.map Prod.fst ++ last :: lines)))
    (hguard : Guarded Stream.step Stream.PutsInTime Stream.start events)
    (h : run Stream.step Stream.start events = some σ) (hfinished : σ.Finished)
    (hreads : reads.flatten = body requestId created model σ.received) :
    iterSSEDeltas .new [] reads =
      ((pieces.map Prod.snd ++ [t]).filter (· ≠ [])).map fun t => .str (utf16 t) := by
  have hcomplete := Stream.complete_of_putsInTime hguard h hfinished
  have hproduced := ((Stream.produced_of_follows h hfollows).2 hcomplete.1).1
  rw [streamGenerate_reply raises connectionEnd hpieces hlast lines] at hproduced
  have htexts : σ.produced = (pieces.map Prod.snd ++ [t]).filter (· ≠ []) :=
    List.map_injective_iff.mpr (fun _ _ => Json.str.inj) hproduced
  have hnone : σ.received.filterMap Chunk.delta = σ.received.filterMap Chunk.answer := by
    apply List.filterMap_congr
    intro c hc
    have hnotice := hfinished.2 c hc
    cases c with
    | content t => rfl
    | stop => rfl
    | done => rfl
    | _ => cases hnotice
  rw [iterSSEDeltas_body hreads, deltas, hnone, hcomplete.2, htexts, List.filter_filter]
  simp only [Bool.and_self]

/-- A reply of two pieces. -/
def helloYields : List Json × StreamEnd :=
  ([.str (text "Hello"), .str (text " world")], .returned)

theorem follows_shortAnswer : Follows Stream.shortAnswer helloYields := List.prefix_rfl

theorem page_shows_prefix_sample : ∃ σ, run Stream.step Stream.start Stream.shortAnswer = some σ ∧
    ∃ texts notices : List Text, texts.map Json.str <+: helloYields.1 ∧ notices.length ≤ 1 ∧
      (∀ n ∈ notices, ∃ c : Chunk, c.isNotice = true ∧ c.delta = some n) ∧
        iterSSEDeltas .new [] [(body [] 7 [] σ.received).take 50] <+:
          ((texts ++ notices).filter (· ≠ [])).map fun t => .str (utf16 t) := by
  have hrun : (run Stream.step Stream.start Stream.shortAnswer).isSome = true := by decide +kernel
  obtain ⟨σ, hσ⟩ := Option.isSome_iff_exists.mp hrun
  have hreads : [(body [] 7 [] σ.received).take 50].flatten <+: body [] 7 [] σ.received := by
    rw [List.flatten_singleton]
    exact List.take_prefix _ _
  exact ⟨σ, hσ, page_shows_prefix hσ follows_shortAnswer hreads⟩

end Page

end LocalGraphRag.Web
