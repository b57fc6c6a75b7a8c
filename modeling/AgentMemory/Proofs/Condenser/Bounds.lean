import AgentMemory.Proofs.Condenser.Projection
import Mathlib.Order.Bounds.Basic

/-!
# The size of a condensed view

The places where a view may be cut come in order and the last of them is its end, so snapping leads
to the first one that is not too early (`snap_isLeast`). Whether anything is selected, and how much,
is then a matter of four numbers: the size of the view, the events kept at the front, the room left
at the end and the first place to cut (`select_within`). When the front itself ends where the view
may be cut, what is left has at most the size that was aimed at.
-/

namespace AgentMemory

open Batching (AnswersFollow Model NoAnswerAhead allBoundaries boundaryOffset ids)
open View (retained)

namespace Condenser

variable {s : CondenserSettings} {c : Condenser} {v : View} {r : ForgottenRange}

/-- How many events stand in front of each place where a view may be cut. -/
def offsets (v : View) : List Nat := v.cuts.map (boundaryOffset v.size)

/-- How many events settings leave room for behind the summary: what is left of the size aimed at
when the events at the front and the summary have their places. -/
def room (s : CondenserSettings) (v : View) : Nat :=
  (if v.requested then v.size / 2 else s.maxSize / 2) - s.keepFirst - 1

/-- The most events that a condensed view should have. When the condensation was asked for, the
front may take more than half of a small view, and the summary comes on top of it. -/
def bound (s : CondenserSettings) (v : View) : Nat :=
  if v.requested then max (v.size / 2) (s.keepFirst + 1) else s.maxSize / 2

/-! ## Snapping -/

section

variable (hcuts : v.cuts = Model.standard.cuts v.events)
include hcuts

theorem offsets_pairwise : (offsets v).Pairwise (· ≤ ·) := by
  have hall : (allBoundaries v.size).Pairwise (· ≤ ·) := by
    rw [allBoundaries]
    split
    · exact List.pairwise_singleton _ _
    · refine List.pairwise_append.mpr ⟨?_, List.pairwise_singleton _ _, fun k hk l hl => ?_⟩
      · exact List.pairwise_lt_range.imp Nat.le_of_lt
      · have := List.mem_range.mp hk
        rw [List.mem_singleton.mp hl, Batching.tailBoundary]
        omega
  rw [offsets, hcuts, List.pairwise_map]
  refine (hall.filter _).imp fun {k l} hkl => ?_
  unfold boundaryOffset
  omega

theorem size_mem_offsets : v.size ∈ offsets v := by
  rw [offsets, hcuts, List.mem_map]
  by_cases hpos : 0 < v.events.length
  · refine ⟨v.events.length + 1, (Batching.ends_mem_cuts _ hpos).2.1, ?_⟩
    exact Nat.min_eq_right (Nat.le_succ _)
  · have hnil : v.events = [] := List.length_eq_zero_iff.mp (by omega)
    rw [View.size, hnil]
    exact ⟨1, by decide, rfl⟩

theorem snap_isLeast {position : Nat} (hposition : position ≤ v.size) :
    IsLeast {o | o ∈ offsets v ∧ position ≤ o} (snap v position) := by
  rw [snap, ← offsets]
  cases hfind : (offsets v).find? (position ≤ ·) with
  | none =>
    have hend := List.find?_eq_none.mp hfind _ (size_mem_offsets hcuts)
    exact absurd (decide_eq_true hposition) hend
  | some o =>
    obtain ⟨ho, before, after, hsplit, hbefore⟩ := List.find?_eq_some_iff_append.mp hfind
    refine ⟨⟨List.mem_of_find?_eq_some hfind, of_decide_eq_true ho⟩, ?_⟩
    rintro k ⟨hk, hle⟩
    have hsorted := offsets_pairwise hcuts
    rw [hsplit] at hk hsorted
    rcases List.mem_append.mp hk with hk | hk
    · simpa [hle] using hbefore k hk
    · rcases List.mem_cons.mp hk with rfl | hk
      · exact Nat.le_refl _
      · exact (List.pairwise_cons.mp (List.pairwise_append.mp hsorted).2.1).1 k hk

end

/-! ## Selecting -/

theorem ofSettings_eq_ok (h : ofSettings s = .ok c) :
    c.model = .standard ∧ c.maxSize = s.maxSize ∧ c.keepFirst = s.keepFirst ∧
      s.keepFirst + 1 < s.maxSize / 2 := by
  rw [ofSettings] at h
  split at h
  · cases h
  next hlt =>
    cases h
    exact ⟨rfl, rfl, rfl, Nat.lt_of_not_le hlt⟩

theorem tailFor_target (h : ofSettings s = .ok c) : c.tailFor (c.target v) = room s v := by
  obtain ⟨-, hmax, hkeep, -⟩ := ofSettings_eq_ok h
  rw [tailFor, target, room, hmax, hkeep, Nat.sub_sub]

/-- The front, the summary and the room behind it make up the size aimed at. -/
theorem room_le_bound (h : ofSettings s = .ok c) : s.keepFirst + 1 + room s v ≤ bound s v := by
  obtain ⟨-, -, -, hsizes⟩ := ofSettings_eq_ok h
  rw [room, bound]
  split <;> omega

theorem select_eq_error {error : CondenserError} :
    c.select v = .error error ↔ error = .nothingToCondense ∧ c.rangeEnd v ≤ c.rangeStart v := by
  rw [select]
  split
  next hle => simp [hle, eq_comm]
  next hlt => simp [hlt]

theorem exists_select_of_lt (hlt : c.rangeStart v < c.rangeEnd v) : ∃ r, c.select v = .ok r := by
  cases hselect : c.select v with
  | error error => exact absurd (select_eq_error.mp hselect).2 (Nat.not_le_of_lt hlt)
  | ok r => exact ⟨r, rfl⟩

theorem rangeStart_isLeast (hcuts : v.cuts = Model.standard.cuts v.events) :
    IsLeast {o | o ∈ offsets v ∧ min c.keepFirst v.size ≤ o} (c.rangeStart v) :=
  snap_isLeast hcuts (Nat.min_le_right _ _)

theorem rangeEnd_isLeast (hcuts : v.cuts = Model.standard.cuts v.events) :
    IsLeast {o | o ∈ offsets v ∧ max (v.size - c.tailFor (c.target v)) (c.rangeStart v) ≤ o}
      (c.rangeEnd v) :=
  snap_isLeast hcuts (Nat.max_le.mpr ⟨Nat.sub_le _ _, snap_le _ _⟩)

theorem rangeEnd_le_rangeStart_iff (hcuts : v.cuts = Model.standard.cuts v.events) :
    c.rangeEnd v ≤ c.rangeStart v ↔ v.size ≤ c.rangeStart v + c.tailFor (c.target v) := by
  have hend := rangeEnd_isLeast (c := c) hcuts
  constructor
  · intro hle
    have := hend.1.2
    omega
  · intro hle
    exact hend.2 ⟨(rangeStart_isLeast hcuts).1.1, by omega⟩

theorem rangeStart_lt_rangeEnd_iff (hcuts : v.cuts = Model.standard.cuts v.events) :
    c.rangeStart v < c.rangeEnd v ↔ c.rangeStart v + c.tailFor (c.target v) < v.size := by
  rw [← Nat.not_le, rangeEnd_le_rangeStart_iff hcuts, Nat.not_le]

/-- What of a view is taken out, and how much of it is left. -/
structure Within (s : CondenserSettings) (v : View) (r : ForgottenRange) (start stop : Nat) :
    Prop where
  isLeast : IsLeast {o | o ∈ offsets v ∧ v.size - room s v ≤ o} stop
  events : r.events = (v.events.take stop).drop start
  nonempty : r.events ≠ []
  /-- The events at the front are in front of the range. -/
  front : s.keepFirst ≤ start
  kept : ∀ e ∈ v.events.take s.keepFirst, e.id ∉ ids r.events
  tail : (v.events.drop stop).length ≤ room s v
  offset : r.offset = ((v.events.take start).filter fun e => !e.isSummary).length
  /-- When the front may be cut off, the size aimed at is reached. -/
  size : s.keepFirst ∈ offsets v → start + 1 + (v.events.drop stop).length ≤ bound s v

theorem within_of_select (hc : ofSettings s = .ok c) (hdistinct : (ids v.events).Nodup)
    (hcuts : v.cuts = Model.standard.cuts v.events) (hahead : NoAnswerAhead v.events)
    (h : c.select v = .ok r) : Within s v r (c.rangeStart v) (c.rangeEnd v) := by
  obtain ⟨hmodel, -, hkeep, hsizes⟩ := ofSettings_eq_ok hc
  have hlt := rangeStart_lt_of_select h
  have hmore := (rangeStart_lt_rangeEnd_iff hcuts).mp hlt
  rw [tailFor_target hc] at hmore
  have hstart := rangeStart_isLeast (c := c) hcuts
  have hfront : s.keepFirst ≤ c.rangeStart v := by
    have := hstart.1.2
    omega
  have hstop : IsLeast {o | o ∈ offsets v ∧ v.size - room s v ≤ o} (c.rangeEnd v) := by
    have hleast := rangeEnd_isLeast (c := c) hcuts
    rwa [tailFor_target hc, Nat.max_eq_left (by omega)] at hleast
  have hselected := selected_of_select hmodel hdistinct hcuts hahead h
  have htail : (v.events.drop (c.rangeEnd v)).length ≤ room s v := by
    have := hstop.1.2
    rw [List.length_drop, ← View.size]
    omega
  have hevents : r.events = c.between v := by
    have hsplit := hselected.events.symm.trans (events_eq_between hlt)
    rwa [List.append_left_inj, List.append_right_inj] at hsplit
  refine ⟨hstop, hevents, hselected.nonempty, hfront, fun e he hid => ?_, htail, hselected.offset,
    fun hcut => ?_⟩
  · have hhead : e ∈ v.events.take (c.rangeStart v) := List.take_subset_take_left _ hfront he
    rw [hselected.events, List.append_assoc, Batching.ids_append, Batching.ids_append] at hdistinct
    exact (List.nodup_append.mp hdistinct).2.2 _ (Batching.id_mem_ids hhead) _
      (List.mem_append_left _ hid) rfl
  · have hle : c.rangeStart v ≤ s.keepFirst :=
      hstart.2 ⟨hcut, by rw [hkeep]; exact Nat.min_le_left _ _⟩
    have := room_le_bound (v := v) hc
    omega

/-! ## The condensed view -/

theorem Condensing.size_snoc_le {log head tail : List Event} {e : Event} {d : Condensation}
    {text : String} (h : Condensing log e d r head tail) (htext : d.summary = some text)
    (hsummary : ∀ x ∈ log, x.isSummary = false) (hanswered : Answered log)
    (hagree : AnswersAgree log) :
    (View.ofEvents (log ++ [e])).size ≤ head.length + 1 + tail.length := by
  have hhead := List.length_filter_le (fun x : Event => !x.isSummary) head
  have htail := List.length_filter_le (fun x : Event => !x.isSummary) tail
  have hlength : (retained .standard (log ++ [e])).length =
      (head.filter fun x => !x.isSummary).length + (tail.filter fun x => !x.isSummary).length := by
    rw [h.retained_snoc hsummary hanswered hagree, h.filter_retained hsummary, List.length_append]
  rw [View.size, View.events_of_summary (View.latest?_snoc_condensation h.asCondensation?) htext,
    View.insertAt, List.length_append, List.length_cons, List.length_take, List.length_drop]
  omega

theorem trigger?_ne_eventCount {budget : Option TokenBudget} (h : v.size ≤ c.maxSize) :
    c.trigger? v budget ≠ some .eventCount := by
  rw [trigger?]
  split
  · simp
  · split
    · simp
    · rw [if_neg (Nat.not_lt.mpr h)]
      simp

/-- **What a condenser selects, and the size it leads to.** Nothing is selected just when the view
fits in front of the first place to cut and behind it; otherwise the range goes from there to the
first place that leaves no more than there is room for. In an orderly log nothing else comes into
the view, so its size is then within its bounds and does not call for another condensation. -/
theorem select_within {log : List Event} (hc : ofSettings s = .ok c) (hlog : Identified log)
    (hv : v = .ofEvents log) (hahead : NoAnswerAhead v.events) :
    ∃ start, IsLeast {o | o ∈ offsets v ∧ min s.keepFirst v.size ≤ o} start ∧
      (c.select v = .error .nothingToCondense ↔ v.size ≤ start + room s v) ∧
      (start + room s v < v.size → ∃ stop r, c.select v = .ok r ∧ Within s v r start stop) ∧
      ∀ summarize t d, s.keepFirst ∈ offsets v → c.condense summarize v = .ok d →
        Identified (log ++ [.condensation t d]) → (∀ e ∈ log, e.isSummary = false) →
        Answered log → AnswersAgree log →
          (View.ofEvents (log ++ [.condensation t d])).size ≤ bound s v ∧
          (v.requested = false → ∀ budget,
            c.trigger? (.ofEvents (log ++ [.condensation t d])) budget ≠ some .eventCount) := by
  obtain ⟨hmodel, hmax, hkeep, -⟩ := ofSettings_eq_ok hc
  have hcuts : v.cuts = Model.standard.cuts v.events := by rw [hv]; rfl
  have hdistinct : (ids v.events).Nodup := hv ▸ View.distinct_events hlog
  have hwithin := fun {r} => within_of_select (r := r) hc hdistinct hcuts hahead
  refine ⟨c.rangeStart v, hkeep ▸ rangeStart_isLeast hcuts, ?_, fun hmore => ?_,
    fun summarize t d hcut hcondense hnext hsummary hanswered hagree => ?_⟩
  · rw [select_eq_error, rangeEnd_le_rangeStart_iff hcuts, tailFor_target hc]
    exact and_iff_right rfl
  · have hlt : c.rangeStart v < c.rangeEnd v := by
      rw [rangeStart_lt_rangeEnd_iff hcuts, tailFor_target hc]
      exact hmore
    obtain ⟨r, hselect⟩ := exists_select_of_lt hlt
    exact ⟨c.rangeEnd v, r, hselect, hwithin hselect⟩
  · obtain ⟨_, _, hselect, -, -⟩ := condense_eq_ok hcondense
    have haimed := (hwithin hselect).size hcut
    subst hv
    obtain ⟨r, text, -, rfl, h⟩ := condensing_of_condense hmodel hnext hanswered hcondense
    have hsize := h.size_snoc_le rfl hsummary hanswered hagree
    rw [length_take_rangeStart] at hsize
    refine ⟨Nat.le_trans hsize haimed, fun hreq budget => trigger?_ne_eventCount ?_⟩
    rw [bound, hreq, if_neg Bool.false_ne_true] at haimed
    omega

end Condenser

open Sample (said called failed condensed stamp condensable keeper condensedAgain)

theorem Condenser.select_within_condensable :
    keeper.condense (fun _ => .ok "later") (.ofEvents condensable) = .ok condensedAgain ∧
      (View.ofEvents (condensable ++ [.condensation (stamp "k2") condensedAgain])).size ≤
        bound ⟨8, 1, none⟩ (.ofEvents condensable) ∧
      keeper.trigger?
        (.ofEvents (condensable ++ [.condensation (stamp "k2") condensedAgain])) none ≠
        some .eventCount := by
  have hcondense :
      keeper.condense (fun _ => .ok "later") (.ofEvents condensable) = .ok condensedAgain := by
    with_unfolding_all rfl
  have hlog : Identified condensable := by decide +kernel
  have hanswered : Answered condensable := .of_take (by decide +kernel)
  obtain ⟨-, -, -, -, hsize⟩ := select_within (s := ⟨8, 1, none⟩) (c := keeper) rfl hlog rfl
    ((View.answersFollow_events hlog hanswered).noAnswerAhead
      (Batching.nodup_of_ids (View.distinct_events hlog)))
  obtain ⟨hle, htrigger⟩ := hsize _ (stamp "k2") _ (by decide +kernel) hcondense (by decide +kernel)
    (by decide) hanswered (by decide +kernel)
  exact ⟨hcondense, hle, htrigger (by decide +kernel) none⟩

/-! ## Logs without that order -/

namespace Sample

def tight : Condenser := { maxSize := 4, keepFirst := 0 }

/-- Results of four calls, in front of later ones that name another action. -/
def contested : List Event :=
  [called "a1" "b1" "c0", failed "w1" "c1" "a1", failed "w2" "c2" "a1", failed "w3" "c3" "a1",
    failed "w4" "c4" "a1", called "a2" "b2" "c5", failed "l1" "c1" "a2", failed "l2" "c2" "a2",
    failed "l3" "c3" "a2", failed "l4" "c4" "a2"]

/-- Results of four calls, in front of later ones, without the action that they name. -/
def unanswered : List Event :=
  [failed "w1" "c1" "a1", failed "w2" "c2" "a1", failed "w3" "c3" "a1", failed "w4" "c4" "a1",
    said "u", failed "l1" "c1" "a1", failed "l2" "c2" "a1", failed "l3" "c3" "a1",
    failed "l4" "c4" "a1"]

/-- A summary that is itself in a log. -/
def noted (id : String) : Event := ⟨⟨id⟩, default, .environment, .condensationSummary "earlier"⟩

/-- Four summaries in front of two messages. -/
def annotated : List Event :=
  [noted "s1", noted "s2", noted "s3", noted "s4", said "u", said "v"]

/-- A result that names the summary of a condensation after it. -/
def foretold : List Event :=
  [failed "y" "c1" "k1-summary", said "m1", condensed "k1" ["m1"] 1, said "m2", said "m3",
    said "m4"]

def cutFront (forgotten : List String) (turn : Option BatchId := none) : Condensation where
  forgotten := forgotten.map .mk
  summary := some "later"
  offset := some 0
  turn := turn

end Sample

open Sample (tight contested unanswered annotated foretold cutFront)

namespace Condenser

/-- A log in which no answer stands before its action, and which a condenser condenses because of
its size, from a front that may be cut off, without being done with it. -/
structure StillLarge (c : Condenser) (log : List Event) (d : Condensation) : Prop where
  follow : AnswersFollow log
  identified : Identified (log ++ [.condensation (stamp "k") d])
  large : c.trigger? (.ofEvents log) none = some .eventCount
  front : c.keepFirst ∈ offsets (.ofEvents log)
  condensed : c.condense (fun _ => .ok "later") (.ofEvents log) = .ok d
  still : c.trigger? (.ofEvents (log ++ [.condensation (stamp "k") d])) none = some .eventCount

/-- A view can outgrow its bounds by the very condensation: results that lost their call to
forgotten ones come back when these named another action, or an action that is not there, and
summaries that are events of the log are not forgotten. And more than the range is selected when a
result in front of the summary names it, though there is no answer in the log that stands before its
action. -/
theorem stillLarge_of_disorder :
    ofSettings ⟨4, 0, none⟩ = .ok tight ∧
      StillLarge tight contested (cutFront ["a1", "w1", "w2", "w3", "w4"] (some ⟨"b2"⟩)) ∧
      StillLarge tight unanswered (cutFront ["w1", "w2", "w3", "w4"]) ∧
      StillLarge tight annotated (cutFront ["u"]) ∧
      AnswersFollow foretold ∧ Identified foretold ∧
      ids (keeper.between (.ofEvents foretold)) = [⟨"k1-summary"⟩, ⟨"m2"⟩] ∧
      (keeper.select (.ofEvents foretold)).toOption.map (fun r => ids r.events) =
        some [⟨"y"⟩, ⟨"k1-summary"⟩, ⟨"m2"⟩] := by
  refine ⟨rfl, ?_, ?_, ?_, .of_drop (by decide +kernel), by decide +kernel, by decide +kernel,
    by decide +kernel⟩
  all_goals
    exact ⟨.of_drop (by decide +kernel), by decide +kernel, by decide +kernel, by decide +kernel,
      by with_unfolding_all rfl, by decide +kernel⟩

end Condenser
end AgentMemory
