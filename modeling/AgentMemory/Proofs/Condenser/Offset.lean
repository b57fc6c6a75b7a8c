import AgentMemory.Proofs.Condenser.Projection
import AgentMemory.Proofs.View.Growth

/-!
# The place of the summary in a growing log

A condensation notes how many events come before its summary. When one of those is a failure and its
call succeeds later, the failure goes out of the view and the summary moves behind an event more
than was meant (`Condenser.events_grown`). It was put where no batch is parted, and there it stays
as long as no failure before it is superseded.
-/

namespace AgentMemory

open Batching (ids)
open View (Growth insertAt retained summaryEvent superseded)
open Sample (said called succeeded failed stamp)

/-- An event stands between two events of one batch. -/
def PartsBatch (events : List Event) (e : Event) : Prop :=
  ∃ x y b, x.batch? = some b ∧ y.batch? = some b ∧ Before events x e ∧ Before events e y

theorem PartsBatch.of_split {before after : List Event} {e x y : Event} {b : BatchId}
    (hx : x ∈ before) (hxb : x.batch? = some b) (hy : y ∈ after) (hyb : y.batch? = some b) :
    PartsBatch (before ++ e :: after) e :=
  ⟨x, y, b, hxb, hyb, Before.of_mem hx (by simp), Before.of_split hy⟩

theorem partsBatch_iff_of_split {before after : List Event} {e : Event}
    (hnodup : (before ++ e :: after).Nodup) :
    PartsBatch (before ++ e :: after) e ↔
      ∃ x ∈ before, ∃ y ∈ after, ∃ b, x.batch? = some b ∧ y.batch? = some b := by
  constructor
  · rintro ⟨x, y, b, hxb, hyb, hx, hy⟩
    exact ⟨x, hx.mem_of_split hnodup, y, hy.mem_after_of_split hnodup, b, hxb, hyb⟩
  · rintro ⟨x, hx, y, hy, b, hxb, hyb⟩
    exact .of_split hx hxb hy hyb

/-- An event put behind as many as a sequence had moves on for each that has gone. -/
private theorem insertAt_length (p : Event → Bool) (head rest : List Event) (e : Event) :
    insertAt head.length e (head.filter (fun x => !p x) ++ rest) =
      head.filter (fun x => !p x) ++ rest.take (head.countP p) ++
        e :: rest.drop (head.countP p) := by
  have hlength : head.length = (head.filter fun x => !p x).length + head.countP p := by
    rw [List.length_eq_countP_add_countP p, ← List.countP_eq_length_filter, Nat.add_comm]
    congr 2
    funext x
    simp
  rw [insertAt, hlength, List.take_length_add_append, List.drop_length_add_append]

namespace Condenser

def front (c : Condenser) (v : View) : List Event :=
  (v.events.take (c.rangeStart v)).filter fun e => !e.isSummary

/-- How many failures in front of the summary are superseded by what is appended. -/
def passed (c : Condenser) (log : List Event) (k : Event) (more : List Event) : Nat :=
  (c.front (.ofEvents log)).countP (superseded (log ++ [k]) more)

section

variable {c : Condenser} {summarize : Summarizer} {log more : List Event} {s : Stamp}
  {d : Condensation} {k : Event}
  (hk : k = .condensation s d) (hmodel : c.model = .standard)
  (hlog : Identified (log ++ [k] ++ more)) (hsummary : ∀ e ∈ log, e.isSummary = false)
  (hanswers : AnswersActions log) (hagree : AnswersAgree log)
  (hcondense : c.condense summarize (.ofEvents log) = .ok d) (hgrowth : Growth (log ++ [k]) more)
include hk hmodel hlog hsummary hanswers hagree hcondense hgrowth

/-- What is retained later begins with what is left of the front, and shares no batch with it. -/
theorem retained_grown :
    ∃ rest, retained .standard (log ++ [k] ++ more) =
        (c.front (.ofEvents log)).filter (fun e => !superseded (log ++ [k]) more e) ++ rest ∧
      ∀ x ∈ c.front (.ofEvents log), ∀ y ∈ rest, ∀ b, x.batch? = some b → y.batch? ≠ some b := by
  subst hk
  obtain ⟨r, text, -, rfl, h⟩ :=
    condensing_of_condense hmodel hlog.of_append hanswers.answered hcondense
  obtain ⟨new, hnew, hretained⟩ := hgrowth.retained_append hlog.distinct (hanswers.snoc rfl)
  rw [h.retained_snoc hsummary hanswers.answered hagree, h.filter_retained hsummary,
    List.filter_append, List.append_assoc (List.filter _ _), ← front] at hretained
  refine ⟨_, hretained, fun x hx y hy b hxb => ?_⟩
  have hxv := List.mem_of_mem_filter hx
  rcases List.mem_append.mp hy with hy | hy
  · have hyv := List.mem_of_mem_filter (List.mem_of_mem_filter hy)
    exact h.selected.start.batch x hxv y (List.mem_append_right _ hyv) b hxb
  · have hxr := View.mem_retained_of_batch? (List.mem_of_mem_take hxv) hxb
    have hxl := View.retained_subset hxr
    exact fun hyb => hgrowth.begun y (hnew.subset hy) b hyb
      (Batching.mem_batchIds.mpr ⟨x, List.mem_append_left _ hxl, hxb⟩)

/-- **The summary moves past one more event for each failure in front of it that is superseded.** It
parts a batch only when that leads into one, so as long as none is superseded it parts no batch. -/
theorem events_grown :
    ∃ (text : String) (rest : List Event), d.summary = some text ∧
      (View.ofEvents (log ++ [k] ++ more)).events =
        (c.front (.ofEvents log)).filter (fun e => !superseded (log ++ [k]) more e) ++
          rest.take (c.passed log k more) ++
          summaryEvent k text :: rest.drop (c.passed log k more) ∧
      (PartsBatch (View.ofEvents (log ++ [k] ++ more)).events (summaryEvent k text) ↔
        ∃ x ∈ rest.take (c.passed log k more), ∃ y ∈ rest.drop (c.passed log k more),
          ∃ b, x.batch? = some b ∧ y.batch? = some b) ∧
      ((∀ e ∈ c.front (.ofEvents log), superseded (log ++ [k]) more e = false) →
        ¬ PartsBatch (View.ofEvents (log ++ [k] ++ more)).events (summaryEvent k text)) := by
  obtain ⟨rest, hretained, hcut⟩ :=
    retained_grown hk hmodel hlog hsummary hanswers hagree hcondense hgrowth
  subst hk
  obtain ⟨r, text, -, rfl, h⟩ :=
    condensing_of_condense hmodel hlog.of_append hanswers.answered hcondense
  set k := Event.condensation s (condensation (.ofEvents log) r text) with hk
  have hlatest : View.latest? (log ++ [k] ++ more) =
      some (k, condensation (.ofEvents log) r text) :=
    View.latest?_eq_some_iff.mpr ⟨log, more, by simp, rfl, hgrowth.plain⟩
  have hevents : (View.ofEvents (log ++ [k] ++ more)).events =
      (c.front (.ofEvents log)).filter (fun e => !superseded (log ++ [k]) more e) ++
        rest.take (c.passed log k more) ++
        summaryEvent k text :: rest.drop (c.passed log k more) := by
    rw [View.events_of_summary hlatest rfl, hretained]
    simp only [condensation, Option.getD_some, h.selected.offset]
    exact insertAt_length (superseded (log ++ [k]) more) (c.front (.ofEvents log)) rest _
  have hparts : PartsBatch (View.ofEvents (log ++ [k] ++ more)).events (summaryEvent k text) ↔
      ∃ x ∈ rest.take (c.passed log k more), ∃ y ∈ rest.drop (c.passed log k more),
        ∃ b, x.batch? = some b ∧ y.batch? = some b := by
    have hnodup := Batching.nodup_of_ids (View.distinct_events hlog)
    rw [hevents] at hnodup ⊢
    rw [partsBatch_iff_of_split hnodup]
    constructor
    · rintro ⟨x, hx, y, hy, b, hxb, hyb⟩
      rcases List.mem_append.mp hx with hx | hx
      · exact absurd hyb (hcut x (List.mem_of_mem_filter hx) y (List.mem_of_mem_drop hy) b hxb)
      · exact ⟨x, hx, y, hy, b, hxb, hyb⟩
    · rintro ⟨x, hx, h⟩
      exact ⟨x, List.mem_append_right _ hx, h⟩
  refine ⟨text, rest, rfl, hevents, hparts, fun hnone => ?_⟩
  have hzero : c.passed log k more = 0 :=
    List.countP_eq_zero.mpr fun e he => by simp [hnone e he]
  rw [hparts, hzero]
  simp

end
end Condenser

namespace Sample

/-- A log with a failed call, and with a batch of two calls at its end. -/
def unsettled : List Event :=
  [said "u", called "a1" "b1" "c1", failed "f1" "c1" "a1", said "m1", said "m2",
    called "a2" "b2" "c2", called "a3" "b2" "c3"]

def generous : Condenser := { maxSize := 12, keepFirst := 3 }

def middleOut : Condensation where
  forgotten := [⟨"m1"⟩, ⟨"m2"⟩]
  summary := some "later"
  offset := some 3
  turn := some ⟨"b2"⟩

end Sample

open Sample (unsettled generous middleOut)

theorem Condenser.growth_unsettled {e : Event} {a : Answer} (ha : e.answer? = some a) :
    Growth (unsettled ++ [.condensation (stamp "k1") middleOut]) [e] where
  plain x hx := by
    rw [List.mem_singleton.mp hx]
    by_contra hnone
    obtain ⟨d, hd⟩ := Option.ne_none_iff_exists'.mp hnone
    simp [Event.answer?_of_asCondensation? hd] at ha
  begun x hx b hb := by
    rw [List.mem_singleton.mp hx] at hb
    simp [Event.answer?_of_batch? hb] at ha
  anchored := by
    refine Or.inr ?_
    decide +kernel

theorem Condenser.events_grown_unsettled :
    generous.condense (fun _ => .ok "later") (.ofEvents unsettled) = .ok middleOut ∧
      ¬ PartsBatch (View.ofEvents (unsettled ++ [.condensation (stamp "k1") middleOut] ++
          [succeeded "r2" "c2" "a2"])).events
        (summaryEvent (.condensation (stamp "k1") middleOut) "later") := by
  have hcondense :
      generous.condense (fun _ => .ok "later") (.ofEvents unsettled) = .ok middleOut := by
    with_unfolding_all rfl
  have hgrowth : Growth (unsettled ++ [.condensation (stamp "k1") middleOut])
      [succeeded "r2" "c2" "a2"] := growth_unsettled rfl
  obtain ⟨text, rest, htext, -, -, hwhole⟩ := events_grown rfl rfl (by decide +kernel) (by decide)
    (.of_take (by decide +kernel)) (by decide +kernel) hcondense hgrowth
  cases htext
  exact ⟨hcondense, hwhole (by decide +kernel)⟩

/-- When the failed call in front of the summary succeeds later, the summary parts the batch after
it. -/
theorem Condenser.parted_by_summary :
    generous.condense (fun _ => .ok "later") (.ofEvents unsettled) = .ok middleOut ∧
      Identified (unsettled ++ [.condensation (stamp "k1") middleOut] ++
        [succeeded "r1" "c1" "a1"]) ∧
      AnswersActions (unsettled ++ [.condensation (stamp "k1") middleOut] ++
        [succeeded "r1" "c1" "a1"]) ∧
      Growth (unsettled ++ [.condensation (stamp "k1") middleOut]) [succeeded "r1" "c1" "a1"] ∧
      PartsBatch (View.ofEvents (unsettled ++ [.condensation (stamp "k1") middleOut] ++
          [succeeded "r1" "c1" "a1"])).events
        (summaryEvent (.condensation (stamp "k1") middleOut) "later") := by
  have hevents : (View.ofEvents (unsettled ++ [.condensation (stamp "k1") middleOut] ++
      [succeeded "r1" "c1" "a1"])).events =
        [said "u", called "a1" "b1" "c1", called "a2" "b2" "c2"] ++
          summaryEvent (.condensation (stamp "k1") middleOut) "later" ::
            [called "a3" "b2" "c3", succeeded "r1" "c1" "a1"] := by
    with_unfolding_all rfl
  refine ⟨by with_unfolding_all rfl, by decide +kernel, .of_take (by decide +kernel),
    growth_unsettled rfl, ?_⟩
  rw [hevents]
  exact PartsBatch.of_split (x := called "a2" "b2" "c2") (by simp) rfl
    (y := called "a3" "b2" "c3") (by simp) rfl

end AgentMemory
