import AgentMemory.Proofs.Event
import AgentMemory.Wire
import Mathlib.Data.List.Induction

/-!
# Tool messages and the calls they answer

When every result comes after an action of its call, every tool message answers a call of an earlier
assistant message (`exists_call_of_tool`). Messages are only ever added, and an assistant message
that grows keeps its calls.
-/

namespace AgentMemory.Wire

/-- An assistant message makes a call. -/
def Makes (m : Message) (call : ToolCallId) : Prop :=
  m.role = .assistant ∧ call ∈ m.toolCalls.map (·.id)

/-- Of messages, the newest first, every tool message answers a call of an older one. -/
def Backed : List Message → Prop
  | [] => True
  | m :: older =>
    (m.role = .tool → ∃ call, m.answers = some call ∧ ∃ m' ∈ older, Makes m' call) ∧ Backed older

theorem Backed.of_split {newer older : List Message} {m : Message}
    (h : Backed (newer ++ m :: older)) (hm : m.role = .tool) :
    ∃ call, m.answers = some call ∧ ∃ m' ∈ older, Makes m' call := by
  induction newer with
  | nil => exact h.1 hm
  | cons n newer ih => exact ih h.2

/-! ## One event -/

variable {e : Event} {m : Message} {call : ToolCallId} {p : Progress}

theorem asAction?_of_single? (h : single? e = some m) : e.asAction? = none := by
  cases hbody : e.body <;> simp_all [single?, Event.asAction?]

theorem exists_answer_of_single? (h : single? e = some m) (hm : m.role = .tool) :
    ∃ a, e.answer? = some a ∧ m.answers = some a.call := by
  rw [single?] at h
  split at h
  case h_3 o hbody =>
    cases h
    exact ⟨⟨o.call, o.action, true⟩, by simp [Event.answer?, hbody], rfl⟩
  case h_4 r hbody =>
    cases h
    exact ⟨⟨r.call, r.action, false⟩, by simp [Event.answer?, hbody], rfl⟩
  all_goals cases h
  all_goals cases hm

theorem isAssistant_of_asAction? {a : Action} (h : e.asAction? = some a) :
    isAssistant e = true := by
  cases hbody : e.body <;> simp_all [isAssistant, Event.asAction?]

@[simp] theorem role_extend : (m.extend e).role = m.role := by
  cases hbody : e.body <;> simp [Message.extend, hbody]

theorem Makes.extend (h : Makes m call) : Makes (m.extend e) call := by
  refine ⟨role_extend.trans h.1, ?_⟩
  have := h.2
  cases hbody : e.body <;> simp_all [Message.extend]

theorem makes_extend {a : Action} (hm : m.role = .assistant) (ha : e.asAction? = some a) :
    Makes (m.extend e) a.call := by
  refine ⟨role_extend.trans hm, ?_⟩
  cases hbody : e.body <;> simp_all [Message.extend, Event.asAction?]

/-- What happens to the messages when an event is added: a message of its own is put in front, the
first one grows, an assistant message begins, or nothing. -/
theorem push_cases (p : Progress) (e : Event) :
    (∃ m, single? e = some m ∧ p.push e = { messages := m :: p.messages }) ∨
      (∃ last rest, p.messages = last :: rest ∧ p.batch.isSome ∧
        p.push e = { p with messages := last.extend e :: rest }) ∨
      p.push e = Progress.push.begin p e ∨ (e.asAction? = none ∧ p.push e = p) := by
  rw [Progress.push]
  cases hsingle : single? e with
  | some m => exact Or.inl ⟨m, rfl, rfl⟩
  | none =>
    by_cases hassistant : isAssistant e = true
    · simp only [hassistant, if_true]
      cases hmessages : p.messages with
      | nil => exact Or.inr (Or.inr (Or.inl rfl))
      | cons last rest =>
        by_cases hjoins : (e.batch?.isSome && p.batch == e.batch?) = true
        · simp only [hjoins, if_true]
          obtain ⟨hsome, heq⟩ := Bool.and_eq_true_iff.mp hjoins
          exact Or.inr (Or.inl ⟨last, rest, rfl, (beq_iff_eq.mp heq) ▸ hsome, rfl⟩)
        · simp only [hjoins]
          exact Or.inr (Or.inr (Or.inl rfl))
    · refine Or.inr (Or.inr (Or.inr ⟨?_, by simp [hassistant]⟩))
      rw [Option.eq_none_iff_forall_ne_some]
      exact fun a ha => hassistant (isAssistant_of_asAction? ha)

/-- What holds of the messages of a sequence of events. -/
structure Sound (events : List Event) (p : Progress) : Prop where
  calls : ∀ x ∈ events, ∀ a, x.asAction? = some a → ∃ m ∈ p.messages, Makes m a.call
  /-- Only an assistant message can grow. -/
  growing : p.batch.isSome → ∀ m ∈ p.messages.head?, m.role = .assistant
  backed : Backed p.messages

namespace Sound

variable {events : List Event}

theorem calls_snoc {messages : List Message} (h : Sound events p)
    (hold : ∀ m ∈ p.messages, ∀ call, Makes m call → ∃ m' ∈ messages, Makes m' call)
    (hnew : ∀ a, e.asAction? = some a → ∃ m ∈ messages, Makes m a.call) :
    ∀ x ∈ events ++ [e], ∀ a, x.asAction? = some a → ∃ m ∈ messages, Makes m a.call := by
  intro x hx a ha
  rcases List.mem_append.mp hx with hx | hx
  · obtain ⟨m, hm, hmakes⟩ := h.calls x hx a ha
    exact hold m hm _ hmakes
  · rw [List.mem_singleton.mp hx] at ha
    exact hnew a ha

theorem single (h : Sound events p) (hm : single? e = some m)
    (hanswer : ∀ a, e.answer? = some a →
      ∃ x ∈ events, ∃ q, x.asAction? = some q ∧ q.call = a.call) :
    Sound (events ++ [e]) { messages := m :: p.messages } where
  calls := by
    refine h.calls_snoc (fun m' hm' call hmakes => ?_) fun a ha => ?_
    · exact ⟨m', List.mem_cons_of_mem _ hm', hmakes⟩
    · rw [asAction?_of_single? hm] at ha
      cases ha
  growing hsome := by simp at hsome
  backed := by
    refine ⟨fun htool => ?_, h.backed⟩
    obtain ⟨a, ha, hcall⟩ := exists_answer_of_single? hm htool
    obtain ⟨x, hx, q, hq, hqa⟩ := hanswer a ha
    obtain ⟨m', hm', hmakes⟩ := h.calls x hx q hq
    rw [hqa] at hmakes
    exact ⟨a.call, hcall, m', hm', hmakes⟩

theorem grow (h : Sound events p) {last : Message} {rest : List Message}
    (hmessages : p.messages = last :: rest) (hsome : p.batch.isSome) :
    Sound (events ++ [e]) { p with messages := last.extend e :: rest } := by
  have hrole : last.role = .assistant := h.growing hsome last (by simp [hmessages])
  have hbacked := h.backed
  rw [hmessages] at hbacked
  refine ⟨h.calls_snoc (fun m' hm' call hmakes => ?_) fun a ha => ?_, fun _ m' hm' => ?_,
    fun htool => ?_, hbacked.2⟩
  · rw [hmessages] at hm'
    rcases List.mem_cons.mp hm' with rfl | hm'
    · exact ⟨_, List.mem_cons_self .., hmakes.extend⟩
    · exact ⟨m', List.mem_cons_of_mem _ hm', hmakes⟩
  · exact ⟨_, List.mem_cons_self .., makes_extend hrole ha⟩
  · cases hm'
    exact role_extend.trans hrole
  · rw [role_extend, hrole] at htool
    cases htool

theorem begin (h : Sound events p) : Sound (events ++ [e]) (Progress.push.begin p e) := by
  refine ⟨h.calls_snoc (fun m' hm' call hmakes => ?_) fun a ha => ?_, fun _ m' hm' => ?_,
    fun htool => ?_, h.backed⟩
  · exact ⟨m', List.mem_cons_of_mem _ hm', hmakes⟩
  · exact ⟨_, List.mem_cons_self .., makes_extend rfl ha⟩
  · cases hm'
    exact role_extend
  · rw [role_extend] at htool
    cases htool

theorem push (h : Sound events p)
    (hanswer : ∀ a, e.answer? = some a →
      ∃ x ∈ events, ∃ q, x.asAction? = some q ∧ q.call = a.call) :
    Sound (events ++ [e]) (p.push e) := by
  rcases push_cases p e with ⟨m, hm, hpush⟩ | ⟨last, rest, hmessages, hsome, hpush⟩ | hpush |
    ⟨hnone, hpush⟩ <;> rw [hpush]
  · exact h.single hm hanswer
  · exact h.grow hmessages hsome
  · exact h.begin
  · refine ⟨h.calls_snoc (fun m' hm' call hmakes => ⟨m', hm', hmakes⟩) fun a ha => ?_, h.growing,
      h.backed⟩
    rw [hnone] at ha
    cases ha

end Sound

/-! ## Many events -/

/-- Every result comes after an action of its call. -/
def Preceded (events : List Event) : Prop :=
  ∀ before y after, events = before ++ y :: after → ∀ a, y.answer? = some a →
    ∃ x ∈ before, ∃ q, x.asAction? = some q ∧ q.call = a.call

theorem sound_foldl {events : List Event} (h : Preceded events) :
    Sound events (events.foldl Progress.push {}) := by
  induction events using List.reverseRecOn with
  | nil => exact ⟨by simp, by simp, trivial⟩
  | append_singleton events e ih =>
    rw [List.foldl_append]
    refine (ih fun before y after hsplit => ?_).push (h events e [] rfl)
    exact h before y (after ++ [e]) (by simp [hsplit])

/-- **A tool message answers a call of an earlier assistant message.** -/
theorem exists_call_of_tool {events : List Event} (h : Preceded events)
    {earlier later : List Message} (hsplit : ofEvents events = earlier ++ m :: later)
    (hm : m.role = .tool) :
    ∃ call, m.answers = some call ∧ ∃ m' ∈ earlier, Makes m' call := by
  have hbacked := (sound_foldl h).backed
  rw [← List.reverse_reverse (events.foldl Progress.push {}).messages, ← ofEvents, hsplit,
    List.reverse_append, List.reverse_cons, List.append_assoc] at hbacked
  obtain ⟨call, hcall, m', hm', hmakes⟩ := hbacked.of_split hm
  exact ⟨call, hcall, m', List.mem_reverse.mp hm', hmakes⟩

end AgentMemory.Wire
