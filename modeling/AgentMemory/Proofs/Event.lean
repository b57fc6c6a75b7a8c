import AgentMemory.Event.Basic

/-!
# Kinds of events

An event is of one kind, so what it is asked for tells what it is not: an event of a batch is no
result, a result belongs to no batch, and both are shown. At the end stand short forms of events,
for logs written out in full; all of them bear the same time.
-/

namespace AgentMemory.Event

variable {e : Event}

theorem batch?_of_asAction? {p : Action} (h : e.asAction? = some p) :
    e.batch? = some p.batch := by
  cases hbody : e.body <;> simp_all [asAction?, batch?]

theorem answer?_of_batch? {b : BatchId} (h : e.batch? = some b) : e.answer? = none := by
  cases hbody : e.body <;> simp_all [batch?, answer?]

theorem batch?_of_answer? {a : Answer} (h : e.answer? = some a) : e.batch? = none := by
  cases hbody : e.body <;> simp_all [batch?, answer?]

theorem isShowable_of_batch? {b : BatchId} (h : e.batch? = some b) : e.isShowable = true := by
  cases hbody : e.body <;> simp_all [batch?, isShowable]

theorem isShowable_of_answer? {a : Answer} (h : e.answer? = some a) : e.isShowable = true := by
  cases hbody : e.body <;> simp_all [answer?, isShowable]

theorem isSummary_of_batch? {b : BatchId} (h : e.batch? = some b) : e.isSummary = false := by
  cases hbody : e.body <;> simp_all [batch?, isSummary]

theorem isSummary_of_answer? {a : Answer} (h : e.answer? = some a) : e.isSummary = false := by
  cases hbody : e.body <;> simp_all [answer?, isSummary]

theorem batch?_of_asCondensation? {d : Condensation} (h : e.asCondensation? = some d) :
    e.batch? = none := by
  cases hbody : e.body <;> simp_all [asCondensation?, batch?]

theorem answer?_of_asCondensation? {d : Condensation} (h : e.asCondensation? = some d) :
    e.answer? = none := by
  cases hbody : e.body <;> simp_all [asCondensation?, answer?]

theorem isShowable_iff :
    e.isShowable = true ↔ e.asCondensation? = none ∧ e.isCondensationRequest = false := by
  cases hbody : e.body <;> simp [isShowable, asCondensation?, isCondensationRequest, hbody]

end AgentMemory.Event

/-! ## Sample events -/

namespace AgentMemory.Sample

def stamp (id : String) : Stamp := ⟨⟨id⟩, default⟩

def said (id : String) : Event := .userMessage (stamp id) "go on"

def called (id batch call : String) : Event :=
  .action (stamp id) ⟨batch⟩ ⟨call⟩ "shell" ⟨"shell", .null⟩

def reasoned (id batch call : String) : Event :=
  (called id batch call).withReasoning [.redacted "opaque"]

def succeeded (id call action : String) : Event :=
  ⟨⟨id⟩, default, .environment, .observation ⟨⟨call⟩, ⟨action⟩, "shell", "done"⟩⟩

def failed (id call action : String) : Event :=
  ⟨⟨id⟩, default, .environment, .agentError ⟨⟨call⟩, ⟨action⟩, "shell", "crashed", false⟩⟩

def condensed (id : String) (forgotten : List String) (offset : Nat) : Event :=
  .condensation (stamp id)
    { forgotten := forgotten.map .mk, summary := some "earlier", offset := some offset }

end AgentMemory.Sample
