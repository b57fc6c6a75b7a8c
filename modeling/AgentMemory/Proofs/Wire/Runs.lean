import AgentMemory.Proofs.View.Events
import AgentMemory.Wire
import Mathlib.Data.List.SplitBy

/-!
# The messages of a view, run by run

A sequence of events falls into runs: adjacent events of the agent that share a batch make one run,
every other event is a run by itself (`runs`). The messages of a view are its runs, each rendered as
one message (`View.wire_flattened`), so what the events hold comes out once and in order.

The messages are made in one pass, by adding every event to the last message or behind it. What the
pass has made of the events so far is `Follows`: the last message can still grow exactly if the last
event is of the agent and in a batch.
-/

namespace AgentMemory.Wire

/-! ## What a message shows of an event -/

def speaker? (e : Event) : Option Role :=
  match e.body with
  | .systemPrompt _ => some .system
  | .message { role := .user, .. } | .condensationSummary _ => some .user
  | .message { role := .agent, .. } | .action _ => some .assistant
  | .observation _ | .agentError _ => some .tool
  | .condensation _ | .condensationRequest _ => none

def text? (e : Event) : Option String :=
  match e.body with
  | .systemPrompt p => some p.prompt
  | .message t => some t.content
  | .observation o => some o.content
  | .agentError r => some r.error
  | .condensationSummary s => some (summaryHeading ++ "\n\n" ++ s)
  | .action _ | .condensation _ | .condensationRequest _ => none

def toolCall? (e : Event) : Option ToolCall :=
  e.asAction?.map fun a => { id := a.call, name := a.tool, arguments := a.payload.data }

def blocks (e : Event) : List ReasoningBlock := (e.asAction?.map (·.reasoning)).getD []

def result? (e : Event) : Option (ToolCallId × String) :=
  match e.body with
  | .observation o => some (o.call, o.content)
  | .agentError r => some (r.call, r.error)
  | _ => none

/-! ## Texts -/

/-- Texts separated by line breaks, once there is any. -/
def joinTexts (texts : List String) : String := "\n".intercalate (texts.dropWhile (·.isEmpty))

theorem isEmpty_intercalate {s t : String} {ts : List String} (h : t.isEmpty = false) :
    (s.intercalate (t :: ts)).isEmpty = false := by
  cases ts <;> simp_all

theorem joinTexts_cons_of_isEmpty {t : String} (h : t.isEmpty = true) (ts : List String) :
    joinTexts (t :: ts) = joinTexts ts := by
  rw [joinTexts, List.dropWhile_cons_of_pos h, joinTexts]

theorem joinTexts_cons_of_not_isEmpty {t : String} (h : ¬ t.isEmpty = true) (ts : List String) :
    joinTexts (t :: ts) = "\n".intercalate (t :: ts) := by
  rw [joinTexts, List.dropWhile_cons_of_neg h]

theorem joinTexts_snoc (ts : List String) (t : String) :
    joinTexts (ts ++ [t]) =
      (if (joinTexts ts).isEmpty then "" else joinTexts ts ++ "\n") ++ t := by
  induction ts with
  | nil =>
    by_cases ht : t.isEmpty = true
    · rw [List.nil_append, joinTexts_cons_of_isEmpty ht, String.isEmpty_iff.mp ht]
      rfl
    · rw [List.nil_append, joinTexts_cons_of_not_isEmpty ht]
      simp [joinTexts]
  | cons u ts ih =>
    by_cases hu : u.isEmpty = true
    · rw [List.cons_append, joinTexts_cons_of_isEmpty hu, joinTexts_cons_of_isEmpty hu, ih]
    · have hne : ("\n".intercalate (u :: ts)).isEmpty = false :=
        isEmpty_intercalate (Bool.not_eq_true _ ▸ hu)
      rw [List.cons_append, joinTexts_cons_of_not_isEmpty hu, joinTexts_cons_of_not_isEmpty hu,
        hne, ← List.cons_append, String.intercalate_append_of_ne_nil (by simp) (by simp),
        String.intercalate_singleton]
      rfl

theorem joinTexts_singleton (t : String) : joinTexts [t] = t := by
  rw [← List.nil_append [t], joinTexts_snoc]
  simp [joinTexts]

/-- The characters of a text but for its line breaks. -/
def letters (s : String) : List Char := s.toList.filter (· ≠ '\n')

theorem letters_joinTexts (ts : List String) : letters (joinTexts ts) = ts.flatMap letters := by
  induction ts using List.reverseRecOn with
  | nil => rfl
  | append_singleton ts t ih =>
    rw [joinTexts_snoc, List.flatMap_append, ← ih]
    by_cases hts : (joinTexts ts).isEmpty = true
    · simp [String.isEmpty_iff.mp hts, letters]
    · simp [hts, letters]

/-! ## Runs -/

/-- Adjacent events make one run: both are of the agent, and they share a batch. -/
def joined (x y : Event) : Bool :=
  speaker? x = some .assistant && speaker? y = some .assistant && x.batch?.isSome &&
    x.batch? = y.batch?

theorem joined_iff {x y : Event} : joined x y = true ↔
    speaker? x = some .assistant ∧ speaker? y = some .assistant ∧ x.batch?.isSome = true ∧
      x.batch? = y.batch? := by
  simp [joined, and_assoc]

/-- The runs of a sequence: its longest parts in which adjacent events are joined. -/
def runs (events : List Event) : List (List Event) := events.splitBy joined

/-- The message that shows a run. -/
def rendered (run : List Event) : Message where
  role := (run.head?.bind speaker?).getD .assistant
  content := joinTexts (run.filterMap text?)
  toolCalls := run.filterMap toolCall?
  reasoning := run.flatMap blocks
  answers := (run.head?.bind result?).map (·.1)

variable {events run : List Event} {e x : Event}

instance : IsTrans Event fun x y => joined x y = true where
  trans x y z hxy hyz := by
    rw [joined_iff] at hxy hyz ⊢
    exact ⟨hxy.1, hyz.2.1, hxy.2.2.1, hxy.2.2.2.trans hyz.2.2.2⟩

theorem exists_head_of_mem_runs (h : run ∈ runs events) :
    ∃ x rest, run = x :: rest ∧ ∀ y ∈ rest, joined x y = true := by
  have hchain := List.isChain_of_mem_splitBy h
  cases run with
  | nil => exact absurd rfl (List.ne_nil_of_mem_splitBy h)
  | cons x rest => exact ⟨x, rest, rfl, (List.pairwise_cons.mp hchain.pairwise).1⟩

theorem cases_of_mem_runs (h : run ∈ runs events) :
    (∀ x ∈ run, speaker? x = some .assistant) ∨
      ∃ x, run = [x] ∧ speaker? x ≠ some .assistant := by
  obtain ⟨x, rest, rfl, hrest⟩ := exists_head_of_mem_runs h
  by_cases hx : speaker? x = some .assistant
  · refine Or.inl (List.forall_mem_cons.mpr ⟨hx, fun y hy => ?_⟩)
    exact (joined_iff.mp (hrest y hy)).2.1
  · refine Or.inr ⟨x, ?_, hx⟩
    cases rest with
    | nil => rfl
    | cons y rest => exact absurd (joined_iff.mp (hrest y (by simp))).1 hx

theorem batch?_eq_of_mem_runs (h : run ∈ runs events) {y : Event} (hx : x ∈ run) (hy : y ∈ run) :
    x.batch? = y.batch? := by
  obtain ⟨z, rest, rfl, hrest⟩ := exists_head_of_mem_runs h
  have hbatch : ∀ y ∈ z :: rest, z.batch? = y.batch? :=
    List.forall_mem_cons.mpr ⟨rfl, fun y hy => (joined_iff.mp (hrest y hy)).2.2.2⟩
  exact (hbatch x hx).symm.trans (hbatch y hy)

theorem batch?_of_mem_runs (h : run ∈ runs events) :
    (∃ x, run = [x]) ∨ ∃ b, ∀ x ∈ run, speaker? x = some .assistant ∧ x.batch? = some b := by
  obtain ⟨x, rest, rfl, hrest⟩ := exists_head_of_mem_runs h
  cases rest with
  | nil => exact Or.inl ⟨x, rfl⟩
  | cons y rest =>
    obtain ⟨hx, -, hsome, -⟩ := joined_iff.mp (hrest y (by simp))
    obtain ⟨b, hb⟩ := Option.isSome_iff_exists.mp hsome
    refine Or.inr ⟨b, List.forall_mem_cons.mpr ⟨⟨hx, hb⟩, fun z hz => ?_⟩⟩
    obtain ⟨-, hz, -, hbatch⟩ := joined_iff.mp (hrest z hz)
    exact ⟨hz, hbatch ▸ hb⟩

theorem runs_snoc_of_not_joined (h : ∀ x ∈ events.getLast?, joined x e = false) :
    runs (events ++ [e]) = runs events ++ [[e]] := List.splitBy_append_cons [] h

theorem exists_last_run (hx : events.getLast? = some x) :
    ∃ earlier run, runs events = earlier ++ [run] ∧ run.getLast? = some x := by
  have hne : events ≠ [] := fun hnil => by simp [hnil] at hx
  rcases List.eq_nil_or_concat' (runs events) with hnil | ⟨earlier, run, hruns⟩
  · exact absurd (List.splitBy_eq_nil.mp hnil) hne
  · refine ⟨earlier, run, hruns, ?_⟩
    have hrun : run ≠ [] := List.ne_nil_of_mem_splitBy (show run ∈ runs events by simp [hruns])
    have hflat : events = earlier.flatten ++ run := by
      rw [← List.flatten_splitBy joined events, ← runs, hruns]
      simp
    rw [hflat, List.getLast?_append_of_ne_nil _ hrun] at hx
    exact hx

theorem runs_snoc_of_joined {earlier : List (List Event)} (hruns : runs events = earlier ++ [run])
    (hx : run.getLast? = some x) (h : joined x e = true) :
    runs (events ++ [e]) = earlier ++ [run ++ [e]] := by
  obtain ⟨hflat, hnil, hchain, hbreak⟩ := List.splitBy_eq_iff.mp hruns
  have hrun : run ≠ [] := fun hnone => by simp [hnone] at hx
  refine List.splitBy_eq_iff.mpr ⟨by simp [hflat], by simp_all, fun r hr => ?_, ?_⟩
  · rcases List.mem_append.mp hr with hr | hr
    · exact hchain r (List.mem_append_left _ hr)
    · rw [List.mem_singleton.mp hr, List.isChain_append]
      refine ⟨hchain run (by simp), List.isChain_singleton e, fun y hy z hz => ?_⟩
      cases hz
      cases hx.symm.trans hy
      exact h
  · rw [List.isChain_append] at hbreak ⊢
    refine ⟨hbreak.1, List.isChain_singleton _, fun r hr z hz => ?_⟩
    obtain ⟨hrne, _, hapart⟩ := hbreak.2.2 r hr run (by simp)
    cases hz
    refine ⟨hrne, by simp, ?_⟩
    rwa [List.head_append_of_ne_nil hrun]

/-! ## Adding an event -/

theorem isAssistant_iff : isAssistant e = true ↔ speaker? e = some .assistant := by
  obtain ⟨id, time, source, body⟩ := e
  cases body with
  | message t =>
    obtain ⟨role, content, batch⟩ := t
    cases role <;> simp [isAssistant, speaker?]
  | _ => simp [isAssistant, speaker?]

theorem single?_of_assistant (he : speaker? e = some .assistant) : single? e = none := by
  obtain ⟨id, time, source, body⟩ := e
  cases body with
  | message t =>
    obtain ⟨role, content, batch⟩ := t
    cases role <;> simp_all [single?, speaker?]
  | _ => simp_all [single?, speaker?]

theorem single?_eq_rendered (hshown : e.isShowable = true) (he : speaker? e ≠ some .assistant) :
    single? e = some (rendered [e]) := by
  obtain ⟨id, time, source, body⟩ := e
  cases body with
  | message t =>
    obtain ⟨role, content, batch⟩ := t
    cases role with
    | user =>
      simp [single?, rendered, speaker?, text?, toolCall?, blocks, result?, Event.asAction?,
        joinTexts_singleton]
    | agent => exact absurd rfl he
  | action a => exact absurd rfl he
  | condensation c => simp [Event.isShowable] at hshown
  | condensationRequest r => simp [Event.isShowable] at hshown
  | _ =>
    simp [single?, rendered, speaker?, text?, toolCall?, blocks, result?, Event.asAction?,
      joinTexts_singleton]

theorem result?_of_assistant (he : speaker? e = some .assistant) : result? e = none := by
  cases hbody : e.body <;> simp_all [result?, speaker?]

theorem rendered_of_assistant (hrun : ∀ x ∈ run, speaker? x = some .assistant) :
    rendered run =
      { role := .assistant
        content := joinTexts (run.filterMap text?)
        toolCalls := run.filterMap toolCall?
        reasoning := run.flatMap blocks } := by
  cases run with
  | nil => rfl
  | cons x rest =>
    have hx := hrun x (by simp)
    simp [rendered, hx, result?_of_assistant hx]

theorem rendered_snoc (hrun : ∀ x ∈ run, speaker? x = some .assistant)
    (he : speaker? e = some .assistant) : rendered (run ++ [e]) = (rendered run).extend e := by
  have hall : ∀ x ∈ run ++ [e], speaker? x = some .assistant := fun x hx => by
    rcases List.mem_append.mp hx with hx | hx
    · exact hrun x hx
    · exact List.mem_singleton.mp hx ▸ he
  rw [rendered_of_assistant hall, rendered_of_assistant hrun]
  cases hbody : e.body with
  | message t =>
    have htext : (run ++ [e]).filterMap text? = run.filterMap text? ++ [t.content] := by
      simp [text?, hbody]
    rw [htext, joinTexts_snoc]
    simp [Message.extend, hbody, toolCall?, blocks, Event.asAction?]
  | action a => simp [Message.extend, hbody, text?, toolCall?, blocks, Event.asAction?]
  | _ => simp [speaker?, hbody] at he

/-! ## The pass over the events -/

/-- The batch of the last event, if that is of the agent. -/
def openBatch? (events : List Event) : Option BatchId :=
  (events.getLast?.filter fun x => speaker? x = some .assistant).bind Event.batch?

theorem openBatch?_snoc :
    openBatch? (events ++ [e]) = if speaker? e = some .assistant then e.batch? else none := by
  rw [openBatch?, List.getLast?_concat, Option.filter_some]
  by_cases he : speaker? e = some .assistant <;> simp [he]

theorem openBatch?_eq_some_iff {b : BatchId} : openBatch? events = some b ↔
    ∃ x, events.getLast? = some x ∧ speaker? x = some .assistant ∧ x.batch? = some b := by
  simp only [openBatch?, Option.bind_eq_some_iff, Option.filter_eq_some_iff, decide_eq_true_eq,
    and_assoc]

/-- The messages so far are the runs of the events so far, and the last one can grow if the last
event is of the agent and in a batch. -/
structure Follows (events : List Event) (p : Progress) : Prop where
  messages : p.messages = ((runs events).map rendered).reverse
  batch : p.batch = openBatch? events

namespace Follows

variable {p : Progress}

theorem single (h : Follows events p) (hshown : e.isShowable = true)
    (he : speaker? e ≠ some .assistant) : Follows (events ++ [e]) (p.push e) := by
  have hruns : runs (events ++ [e]) = runs events ++ [[e]] :=
    runs_snoc_of_not_joined fun x _ => by simp [joined, he]
  rw [Progress.push, single?_eq_rendered hshown he]
  exact ⟨by simp [hruns, h.messages], by rw [openBatch?_snoc, if_neg he]⟩

theorem grow (h : Follows events p) (hx : events.getLast? = some x) (hjoined : joined x e = true) :
    Follows (events ++ [e]) (p.push e) := by
  obtain ⟨hxs, hes, hsome, hbatch⟩ := joined_iff.mp hjoined
  obtain ⟨earlier, run, hruns, hlast⟩ := exists_last_run hx
  have hrun : ∀ y ∈ run, speaker? y = some .assistant := by
    rcases cases_of_mem_runs (show run ∈ runs events by simp [hruns]) with hrun | ⟨y, rfl, hy⟩
    · exact hrun
    · cases hlast
      exact absurd hxs hy
  have hmessages : p.messages = rendered run :: (earlier.map rendered).reverse := by
    simp [h.messages, hruns]
  have hopen : p.batch = e.batch? := by
    obtain ⟨b, hb⟩ := Option.isSome_iff_exists.mp hsome
    rw [h.batch, ← hbatch, hb]
    exact openBatch?_eq_some_iff.mpr ⟨x, hx, hxs, hb⟩
  rw [hbatch] at hsome
  have hpush : p.push e =
      { p with messages := (rendered run).extend e :: (earlier.map rendered).reverse } := by
    simp [Progress.push, single?_of_assistant hes, isAssistant_iff.mpr hes, hmessages, hsome, hopen]
  rw [hpush]
  refine ⟨?_, by rw [openBatch?_snoc, if_pos hes, hopen]⟩
  simp [runs_snoc_of_joined hruns hlast hjoined, rendered_snoc hrun hes]

theorem begin (h : Follows events p) (he : speaker? e = some .assistant)
    (hjoined : ∀ x ∈ events.getLast?, joined x e = false) :
    Follows (events ++ [e]) (p.push e) := by
  -- an open batch is that of the last event, which would be joined to one of the same batch
  have hclosed : (e.batch?.isSome && p.batch == e.batch?) = false := by
    rw [← Bool.not_eq_true, Bool.and_eq_true, beq_iff_eq, h.batch]
    rintro ⟨hsome, hopen⟩
    obtain ⟨b, hb⟩ := Option.isSome_iff_exists.mp hsome
    obtain ⟨x, hx, hxs, hxb⟩ := openBatch?_eq_some_iff.mp (hopen.trans hb)
    have hjoin : joined x e = true := joined_iff.mpr ⟨hxs, he, by simp [hxb], hxb.trans hb.symm⟩
    simp [hjoined x hx] at hjoin
  have hpush : p.push e = Progress.push.begin p e := by
    cases hmessages : p.messages <;>
      simp [Progress.push, single?_of_assistant he, isAssistant_iff.mpr he, hmessages, hclosed]
  have hnil : ∀ x ∈ ([] : List Event), speaker? x = some .assistant := by simp
  have hnew : rendered [e] = ({ role := .assistant, content := "" } : Message).extend e :=
    rendered_snoc hnil he
  rw [hpush]
  refine ⟨?_, by rw [openBatch?_snoc, if_pos he]; rfl⟩
  simp [Progress.push.begin, runs_snoc_of_not_joined hjoined, h.messages, hnew]

theorem push (h : Follows events p) (hshown : e.isShowable = true) :
    Follows (events ++ [e]) (p.push e) := by
  by_cases he : speaker? e = some .assistant
  · by_cases hjoined : ∃ x, events.getLast? = some x ∧ joined x e = true
    · obtain ⟨x, hx, hjoined⟩ := hjoined
      exact h.grow hx hjoined
    · refine h.begin he fun x hx => ?_
      rw [← Bool.not_eq_true]
      exact fun hxe => hjoined ⟨x, hx, hxe⟩
  · exact h.single hshown he

end Follows

theorem follows_foldl (hshown : ∀ x ∈ events, x.isShowable = true) :
    Follows events (events.foldl Progress.push {}) := by
  induction events using List.reverseRecOn with
  | nil => exact ⟨rfl, rfl⟩
  | append_singleton events e ih =>
    rw [List.foldl_append]
    exact (ih fun x hx => hshown x (List.mem_append_left _ hx)).push (hshown e (by simp))

/-- **The messages of a sequence of events are its runs.** -/
theorem ofEvents_eq_runs (hshown : ∀ x ∈ events, x.isShowable = true) :
    ofEvents events = (runs events).map rendered := by
  rw [ofEvents, (follows_foldl hshown).messages, List.reverse_reverse]

theorem ofEvents_filter (events : List Event) :
    ofEvents (events.filter (·.isShowable)) = ofEvents events := by
  have hpush : ∀ p e, (if e.isShowable = true then Progress.push p e else p) = p.push e := by
    intro p e
    split
    · rfl
    · rename_i hcontrol
      cases hbody : e.body <;>
        simp_all [Event.isShowable, Progress.push, single?, isAssistant]
  rw [ofEvents, ofEvents, List.foldl_filter]
  simp only [hpush]

/-! ## What comes out -/

theorem flatten_runs (events : List Event) : (runs events).flatten = events :=
  List.flatten_splitBy joined events

/-- What a run holds is what its message holds, so the messages hold what the events hold. -/
theorem flatMap_rendered {α : Type} {f : Message → List α} {g : Event → List α}
    (h : ∀ run ∈ runs events, f (rendered run) = run.flatMap g) :
    ((runs events).map rendered).flatMap f = events.flatMap g := by
  calc ((runs events).map rendered).flatMap f
      = (runs events).flatMap fun run => run.flatMap g := by
        rw [List.flatMap_map, List.flatMap_congr h]
    _ = ((runs events).flatMap id).flatMap g := List.flatMap_assoc.symm
    _ = events.flatMap g := by rw [← List.flatten_eq_flatMap, flatten_runs]

theorem answers_rendered (hrun : run ∈ runs events) :
    ((rendered run).answers.map (·, (rendered run).content)).toList =
      run.flatMap fun e => (result? e).toList := by
  rcases cases_of_mem_runs hrun with hall | ⟨x, rfl, hx⟩
  · rw [rendered_of_assistant hall]
    have hnone : ∀ y ∈ run, (result? y).toList = [] := fun y hy => by
      rw [result?_of_assistant (hall y hy), Option.toList_none]
    exact (List.flatMap_eq_nil_iff.mpr hnone).symm
  · obtain ⟨id, time, source, body⟩ := x
    cases body <;> simp [rendered, result?, text?, joinTexts_singleton]

theorem toolCalls_rendered (run : List Event) :
    (rendered run).toolCalls = run.flatMap fun e => (toolCall? e).toList :=
  List.filterMap_eq_flatMap_toList _ _

theorem letters_rendered (run : List Event) :
    letters (rendered run).content = run.flatMap fun e => (text? e).toList.flatMap letters := by
  rw [rendered, letters_joinTexts, List.filterMap_eq_flatMap_toList, List.flatMap_assoc]

/-- What a sequence of messages makes of a sequence of events. -/
structure Flattened (events : List Event) (messages : List Message) : Prop where
  /-- Every run is one message. -/
  runs : messages = (runs events).map rendered
  /-- The runs are the events in order, cut wherever adjacent events are not joined. -/
  cut : (Wire.runs events).flatten = events ∧
    (∀ run ∈ Wire.runs events, run ≠ [] ∧ run.IsChain fun x y => joined x y = true) ∧
      (Wire.runs events).IsChain fun run next =>
        ∃ h h', joined (run.getLast h) (next.head h') = false
  batch : ∀ run ∈ Wire.runs events, (∃ x, run = [x]) ∨
    ∃ b, ∀ x ∈ run, speaker? x = some .assistant ∧ x.batch? = some b
  calls : messages.flatMap (·.toolCalls) = events.filterMap toolCall?
  reasoning : messages.flatMap (·.reasoning) = events.flatMap blocks
  results : messages.filterMap (fun m => m.answers.map (·, m.content)) = events.filterMap result?
  /-- The texts of the messages are those of the events but for line breaks. -/
  texts : messages.flatMap (fun m => letters m.content) =
    (events.filterMap text?).flatMap letters
  /-- A message to which the next event of a batch would be added is there, and is of the batch. -/
  growing : ∀ before after b, events = before ++ after →
    (before.foldl Progress.push {}).batch = some b →
    ∃ earlier run, Wire.runs before = earlier ++ [run] ∧
      (∀ x ∈ run, speaker? x = some .assistant ∧ x.batch? = some b) ∧
        (before.foldl Progress.push {}).messages.head? = some (rendered run)

theorem Follows.growing {p : Progress} (h : Follows events p) {b : BatchId}
    (hb : p.batch = some b) :
    ∃ earlier run, runs events = earlier ++ [run] ∧
      (∀ x ∈ run, speaker? x = some .assistant ∧ x.batch? = some b) ∧
        p.messages.head? = some (rendered run) := by
  obtain ⟨x, hx, hxs, hxb⟩ := openBatch?_eq_some_iff.mp (h.batch.symm.trans hb)
  obtain ⟨earlier, run, hruns, hlast⟩ := exists_last_run hx
  have hmem : run ∈ runs events := by simp [hruns]
  have hxrun : x ∈ run := List.mem_of_getLast? hlast
  refine ⟨earlier, run, hruns, fun y hy => ⟨?_, ?_⟩, by simp [h.messages, hruns]⟩
  · rcases cases_of_mem_runs hmem with hall | ⟨z, rfl, hz⟩
    · exact hall y hy
    · exact absurd (List.mem_singleton.mp hxrun ▸ hxs) hz
  · rw [← batch?_eq_of_mem_runs hmem hxrun hy, hxb]

theorem flattened_ofEvents (hshown : ∀ x ∈ events, x.isShowable = true) :
    Flattened events (ofEvents events) := by
  obtain ⟨-, hnil, hchain, hbreak⟩ := List.splitBy_eq_iff.mp (Eq.refl (runs events))
  refine
    { runs := ofEvents_eq_runs hshown
      cut := ⟨flatten_runs events, fun run hrun => ⟨fun h => hnil (h ▸ hrun), hchain run hrun⟩,
        hbreak⟩
      batch := fun run hrun => batch?_of_mem_runs hrun
      calls := ?_
      reasoning := ?_
      results := ?_
      texts := ?_
      growing := fun before after b hsplit hb => ?_ }
  · rw [ofEvents_eq_runs hshown, List.filterMap_eq_flatMap_toList]
    exact flatMap_rendered fun run _ => toolCalls_rendered run
  · rw [ofEvents_eq_runs hshown]
    exact flatMap_rendered fun run _ => rfl
  · rw [ofEvents_eq_runs hshown, List.filterMap_eq_flatMap_toList,
      List.filterMap_eq_flatMap_toList]
    exact flatMap_rendered fun run hrun => answers_rendered hrun
  · rw [ofEvents_eq_runs hshown, List.filterMap_eq_flatMap_toList, List.flatMap_assoc]
    exact flatMap_rendered fun run _ => letters_rendered run
  · refine (follows_foldl fun x hx => hshown x ?_).growing hb
    exact hsplit ▸ List.mem_append_left _ hx

end AgentMemory.Wire

namespace AgentMemory.View

open Wire (Flattened)

theorem isShowable_of_mem_eventsWith {m : Batching.Model} {log : List Event} {e : Event}
    (he : e ∈ (ofEventsWith m log).events) : e.isShowable = true := by
  have hretained : ∀ x ∈ retained m log, x.isShowable = true := fun x hx =>
    isShowable_of_mem_candidates ((retained_sublist_candidates m log).subset hx)
  change e ∈ splice (latest? log) (retained m log) at he
  unfold splice at he
  split at he
  · split at he
    · rcases List.mem_append.mp he with he | he
      · exact hretained e (List.mem_of_mem_take he)
      · rcases List.mem_cons.mp he with rfl | he
        · rfl
        · exact hretained e (List.mem_of_mem_drop he)
    · exact hretained e he
  · exact hretained e he

/-- **The messages of a view are its runs.** Control events, which the view of a log never holds,
have no message. -/
theorem wire_flattened :
    (∀ v : View, Flattened (v.events.filter (·.isShowable)) v.wire) ∧
      ∀ m log, (ofEventsWith m log).events.filter (·.isShowable) = (ofEventsWith m log).events := by
  constructor
  · intro v
    rw [wire, ← Wire.ofEvents_filter]
    exact Wire.flattened_ofEvents fun x hx => (List.mem_filter.mp hx).2
  · intro m log
    exact List.filter_eq_self.mpr fun e he => isShowable_of_mem_eventsWith he

end AgentMemory.View
