import AgentMemory.Proofs.Text
import AgentMemory.Summary

/-!
# The transcript of forgotten events

A transcript has the lines of the first events, all that fit before one does not, and the marker
tells whether events are left out (`transcript_longest`). A later event is left out even where its
own line would still fit.
-/

namespace AgentMemory.SummaryRequest

/-- The number of bytes of an event's line, its end included. -/
def lineSize (e : Event) : Nat := (line e).utf8ByteSize

/-- The lines that fit are those of the longest start of the events, and the marker stands for the
rest of them if there is any. -/
theorem exists_fitting (room : Nat) (events : List Event) :
    ∃ kept left, events = kept ++ left ∧ LongestStart lineSize room events kept ∧
      fitting room (events.map line) =
        kept.map line ++ if left = [] then [] else [truncationMarker] := by
  induction events generalizing room with
  | nil => exact ⟨[], [], rfl, .nil, rfl⟩
  | cons e es ih =>
    rw [List.map_cons, fitting]
    split
    next hfits =>
      obtain ⟨kept, left, rfl, hlongest, hlines⟩ := ih (room - lineSize e)
      refine ⟨e :: kept, left, rfl, .cons hfits hlongest, ?_⟩
      rw [← lineSize, hlines]
      rfl
    next hfits =>
      exact ⟨[], e :: es, rfl, .stop (Nat.lt_of_not_le hfits), rfl⟩

/-- The end of a line counts: two lines of two characters fit into six bytes, but not into five. -/
example : fitting 6 ["ab\n", "cd\n"] = ["ab\n", "cd\n"] ∧
    fitting 5 ["ab\n", "cd\n"] = ["ab\n", truncationMarker] := by decide

/-- **The transcript.** It is made of the lines of the longest start of the events that fits into
150000 bytes, line ends counted, and of the marker just if an event is left out. The line of an
event shows its text in at most 2000 bytes: the text itself if it has no more, and otherwise the
longest start of whole characters within 1997 bytes, which ends at the last boundary of characters
up to there, followed by three dots. -/
theorem transcript_longest (r : SummaryRequest) :
    (∃ kept left, r.forgotten = kept ++ left ∧
      LongestStart lineSize 150000 r.forgotten kept ∧
      r.transcript = String.join (kept.map line) ++ if left = [] then "" else truncationMarker) ∧
    ∀ e, ∃ shown, line e = shown ++ "\n" ∧ shown.utf8ByteSize ≤ 2000 ∧
      (e.text.utf8ByteSize ≤ 2000 → shown = e.text) ∧
      (2000 < e.text.utf8ByteSize →
        ∃ start rest, (e.text.posLE ⟨1997⟩).Splits start rest ∧
          LongestStart Char.utf8Size 1997 e.text.toList start.toList ∧ shown = start ++ "...") := by
  constructor
  · obtain ⟨kept, left, hevents, hlongest, hlines⟩ := exists_fitting transcriptLimit r.forgotten
    refine ⟨kept, left, hevents, hlongest, ?_⟩
    rw [transcript, hlines, String.join_append]
    congr 1
    split <;> simp
  · intro e
    exact ⟨Text.shorten lineLimit e.text, rfl, Text.utf8ByteSize_shorten_le (by decide) _,
      Text.shorten_of_le, Text.exists_shorten_of_lt⟩

end AgentMemory.SummaryRequest
