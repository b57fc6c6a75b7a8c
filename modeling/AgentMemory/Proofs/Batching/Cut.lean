import AgentMemory.Proofs.Batching.Legal
import AgentMemory.Proofs.Event

/-!
# Cuts

A place where a sequence may be cut parts no batch, parts no action from a later answer to it, and
does not fall behind the beginning of the anchor unless nothing is behind it (`cut_of_mem_cuts`).
When two such cuts take out the events between them, what is left is legal in the whole sequence
(`legal_of_cuts`), so a model has nothing to drop from it (`enforce_around_cuts`).
-/

namespace AgentMemory.Batching

/-- The two sides of a place that parts no batch, and that does not fall behind the beginning of the
anchor unless nothing is behind it. -/
structure BatchCut (before after : List Event) : Prop where
  batch : ∀ x ∈ before, ∀ y ∈ after, ∀ b, x.batch? = some b → y.batch? ≠ some b
  anchor : ∀ b, anchor? (before ++ after) = some b → ∀ x ∈ before, x.batch? = some b → after = []

/-- The two sides of a place where a sequence may be cut. -/
structure Cut (before after : List Event) : Prop extends BatchCut before after where
  answer : ∀ x ∈ before, ∀ y ∈ after, ∀ a, y.answer? = some a → a.action ≠ x.id

/-! ## Boundaries and spans -/

theorem mem_cuts {m : Model} {events : List Event} {k : Nat} :
    k ∈ m.cuts events ↔ k ∈ allBoundaries events.length ∧
      ∀ r ∈ m.rules, ∀ s ∈ r.spans events, s.splits k = false := by
  simp only [Model.cuts, boundariesAvoiding, List.mem_filter, Bool.not_eq_true', List.any_eq_false,
    List.mem_flatMap, Bool.not_eq_true]
  exact and_congr_right fun _ =>
    ⟨fun h r hr s hs => h s ⟨r, hr, hs⟩, fun h s ⟨r, hr, hs⟩ => h r hr s hs⟩

theorem boundaryOffset_le (n k : Nat) : boundaryOffset n k ≤ n := Nat.min_le_right _ _

theorem last_lt_of_mem_cuts {m : Model} {events : List Event} {k : Nat} (hk : k ∈ m.cuts events)
    {r : Rule} (hr : r ∈ m.rules) {s : Span} (hs : s ∈ r.spans events)
    (hlast : s.last < events.length) (hfirst : s.first < boundaryOffset events.length k) :
    s.last < boundaryOffset events.length k := by
  have hsplits := (mem_cuts.mp hk).2 r hr s hs
  simp only [Span.splits, Bool.and_eq_false_iff, decide_eq_false_iff_not] at hsplits
  simp only [boundaryOffset] at hfirst ⊢
  omega

/-! ## Positions -/

theorem findLast?_lt {p : Event → Bool} {events : List Event} {i : Nat}
    (h : findLast? p events = some i) : i < events.length := by
  rw [findLast?, Option.map_eq_some_iff] at h
  obtain ⟨j, hj, rfl⟩ := h
  have := (List.findIdx?_eq_some_iff_getElem.mp hj).1
  rw [List.length_reverse] at this
  omega

theorem firstAt?_lt_of_mem_take {b : BatchId} {events : List Event} {x : Event} {o : Nat}
    (hx : x ∈ events.take o) (hb : x.batch? = some b) :
    ∃ i, firstAt? b events = some i ∧ i < o := by
  obtain ⟨i, hi⟩ := exists_firstAt? (mem_batchIds.mpr ⟨x, List.mem_of_mem_take hx, hb⟩)
  refine ⟨i, hi, ?_⟩
  rw [← List.take_append_drop o events] at hi
  have hle := not_iff_not.mpr (length_le_firstAt?_iff hi)
  have hlt := hle.mpr fun h => h x hx hb
  rw [List.length_take] at hlt
  omega

theorem le_findLast?_of_mem_drop {p : Event → Bool} {events : List Event} {y : Event} {o : Nat}
    (hy : y ∈ events.drop o) (hp : p y = true) : ∃ i, findLast? p events = some i ∧ o ≤ i := by
  obtain ⟨before, e, after, rfl, he, hafter⟩ := exists_last ⟨y, List.mem_of_mem_drop hy, hp⟩
  refine ⟨before.length, findLast?_of_split he hafter, ?_⟩
  by_contra hlt
  have hdrop : (before ++ e :: after).drop o = after.drop (o - before.length - 1) := by
    rw [List.drop_append, List.drop_eq_nil_of_le (by omega), List.nil_append,
      show o - before.length = (o - before.length - 1) + 1 by omega, List.drop_succ_cons]
    simp
  rw [hdrop] at hy
  simpa [hp] using hafter y (List.mem_of_mem_drop hy)

theorem findLast?_id_lt_of_mem_take {events : List Event} (hdistinct : (ids events).Nodup)
    {x : Event} {o : Nat} (hx : x ∈ events.take o) :
    ∃ i, findLast? (fun e => e.id = x.id) events = some i ∧ i < o := by
  obtain ⟨before, e, after, hsplit, he, hafter⟩ :=
    exists_last (p := fun e => e.id = x.id) ⟨x, List.mem_of_mem_take hx, by simp⟩
  have hxe : x = e := by
    refine eq_of_id_eq hdistinct (List.mem_of_mem_take hx) ?_ (of_decide_eq_true he).symm
    simp [hsplit]
  subst hxe
  refine ⟨before.length, by rw [hsplit, findLast?_of_split he hafter], ?_⟩
  by_contra hle
  have hnodup := nodup_of_ids hdistinct
  rw [hsplit] at hx hnodup
  rw [List.take_append_of_le_length (by omega)] at hx
  exact (List.nodup_append.mp hnodup).2.2 x (List.mem_of_mem_take hx) x (by simp) rfl

/-! ## What a cut keeps together -/

section

variable {events : List Event} {k : Nat} (hk : k ∈ Model.standard.cuts events)
include hk

theorem batchCut_of_mem_cuts :
    BatchCut (events.take (boundaryOffset events.length k))
      (events.drop (boundaryOffset events.length k)) where
  batch := by
    intro x hx y hy b hxb hyb
    obtain ⟨i, hi, hlt⟩ := firstAt?_lt_of_mem_take hx hxb
    obtain ⟨j, hj, hle⟩ := le_findLast?_of_mem_drop (p := inBatch b) hy (inBatch_iff.mpr hyb)
    have hspan : (⟨i, j⟩ : Span) ∈ Rule.batchAtomicity.spans events := by
      refine List.mem_filterMap.mpr ⟨b, ?_, by simp [Rule.batchSpan?, hi, lastAt?, hj]⟩
      exact mem_batchIds.mpr ⟨x, List.mem_of_mem_take hx, hxb⟩
    have := last_lt_of_mem_cuts hk (by simp [Model.standard]) hspan (findLast?_lt hj) hlt
    exact absurd this (by simpa using hle)
  anchor := by
    intro b hb x hx hxb
    rw [List.take_append_drop] at hb
    obtain ⟨i, hi, hlt⟩ := firstAt?_lt_of_mem_take hx hxb
    have hspan : (⟨i, events.length - 1⟩ : Span) ∈ Rule.reasoningTail.spans events := by
      simp [Rule.spans, hb, hi]
    have hpos : 0 < events.length := List.length_pos_of_mem (List.mem_of_mem_take hx)
    have := last_lt_of_mem_cuts hk (by simp [Model.standard]) hspan (by simp only; omega) hlt
    exact List.drop_eq_nil_of_le (by simp only at this; omega)

theorem cut_of_mem_cuts (hdistinct : (ids events).Nodup) :
    Cut (events.take (boundaryOffset events.length k))
      (events.drop (boundaryOffset events.length k)) where
  toBatchCut := batchCut_of_mem_cuts hk
  answer := by
    intro x hx y hy a ha haction
    obtain ⟨i, hi, hlt⟩ := findLast?_id_lt_of_mem_take hdistinct hx
    obtain ⟨d, hd, hyd⟩ := List.mem_drop_iff_getElem.mp hy
    rw [← haction] at hi
    have hspan : (⟨i, boundaryOffset events.length k + d⟩ : Span) ∈
        Rule.toolCallMatching.spans events := by
      refine List.mem_filterMap.mpr ⟨(y, boundaryOffset events.length k + d), ?_, ?_⟩
      · rw [List.mem_zipIdx_iff_getElem?, ← hyd]
        exact List.getElem?_eq_getElem _
      · simp only [Rule.answerSpan?, ha, Option.bind_eq_bind, Option.bind_some, hi]
        rw [if_pos (by omega)]
    have := last_lt_of_mem_cuts hk (by simp [Model.standard]) hspan
      (by simp only; omega) hlt
    simp only at this
    omega

end

theorem cut_end (events : List Event) : Cut events [] where
  batch := by simp
  answer := by simp
  anchor := by simp

/-! ## Taking out what lies between two cuts -/

/-- Wherever an answer and its action are both in a sequence, the action comes first. -/
def AnswersFollow (events : List Event) : Prop :=
  ∀ y ∈ events, ∀ a, y.answer? = some a → ∀ x ∈ events, x.id = a.action → Before events x y

/-- No answer stands before its action. -/
def NoAnswerAhead (events : List Event) : Prop :=
  ∀ y ∈ events, ∀ a, y.answer? = some a → ∀ x ∈ events, x.id = a.action → ¬ Before events y x

theorem AnswersFollow.of_drop {events : List Event} (h : ∀ k < events.length, ∀ y ∈ events[k]?,
    ∀ a ∈ y.answer?, a.action ∉ ids (events.drop k)) : AnswersFollow events := by
  intro y hy a ha x hx hxa
  obtain ⟨before, after, rfl⟩ := List.append_of_mem hy
  refine (List.mem_append.mp hx).elim (fun hx => Before.of_mem hx (by simp)) fun hx => ?_
  have hbehind := h before.length (by simp) y (by simp) a ha
  rw [List.drop_left] at hbehind
  exact absurd (hxa ▸ id_mem_ids hx) hbehind

theorem AnswersFollow.noAnswerAhead {events : List Event} (hnodup : events.Nodup)
    (h : AnswersFollow events) : NoAnswerAhead events :=
  fun y hy a ha x hx hxa => (h y hy a ha x hx hxa).asymm hnodup

section

variable {head middle tail : List Event}

theorem mem_middle_of_batch (hstart : BatchCut head (middle ++ tail))
    (hstop : BatchCut (head ++ middle) tail) {x y : Event} {b : BatchId} (hx : x ∈ middle)
    (hxb : x.batch? = some b)
    (hy : y ∈ head ++ middle ++ tail) (hyb : y.batch? = some b) : y ∈ middle := by
  rcases List.mem_append.mp hy with hy | hy
  · rcases List.mem_append.mp hy with hy | hy
    · exact absurd hxb (hstart.batch y hy x (List.mem_append_left _ hx) b hyb)
    · exact hy
  · exact absurd hyb (hstop.batch x (List.mem_append_right _ hx) y hy b hxb)

theorem mem_middle_iff_of_answer (hdistinct : (ids (head ++ middle ++ tail)).Nodup)
    (hstart : Cut head (middle ++ tail)) (hstop : Cut (head ++ middle) tail) {x y : Event}
    {a : Answer} (hxy : Before (head ++ middle ++ tail) x y) (ha : y.answer? = some a)
    (hx : x.id = a.action) : x ∈ middle ↔ y ∈ middle := by
  have hnodup := nodup_of_ids hdistinct
  constructor
  · intro hxm
    rcases List.mem_append.mp hxy.mem_right with hy | hy
    · rcases List.mem_append.mp hy with hy | hy
      · rw [List.append_assoc] at hxy hnodup
        have hxh := hxy.mem_of_mem_left hnodup hy
        exact absurd rfl ((List.nodup_append.mp hnodup).2.2 x hxh x (List.mem_append_left _ hxm))
      · exact hy
    · exact absurd hx.symm (hstop.answer x (List.mem_append_right _ hxm) y hy a ha)
  · intro hym
    have hxhm := hxy.mem_of_mem_left hnodup (List.mem_append_right _ hym)
    rcases List.mem_append.mp hxhm with hxh | hxm
    · exact absurd hx.symm (hstart.answer x hxh y (List.mem_append_left _ hym) a ha)
    · exact hxm

theorem tail_eq_nil_of_anchor (hstop : BatchCut (head ++ middle) tail) {b : BatchId}
    (hanchor : anchor? (head ++ middle ++ tail) = some b) {x : Event} (hx : x ∈ middle)
    (hxb : x.batch? = some b) : tail = [] :=
  hstop.anchor b hanchor x (List.mem_append_right _ hx) hxb

theorem not_mem_head_of_precedes (hstart : BatchCut head (middle ++ tail)) {b later : BatchId}
    (hprec : Precedes (head ++ middle ++ tail) b later) {x : Event} (hx : x ∈ middle)
    (hxb : x.batch? = some b) {y : Event} (hyl : y.batch? = some later) : y ∉ head := by
  intro hy
  obtain ⟨i, j, hi, hj, hlt⟩ := hprec
  rw [List.append_assoc] at hi hj
  have hj' : ¬ head.length ≤ j := fun hle => (length_le_firstAt?_iff hj).mp hle y hy hyl
  -- the batch begins in front as well, so it would be parted
  have hle := (length_le_firstAt?_iff hi).mpr fun z hz hzb =>
    hstart.batch z hz x (List.mem_append_left _ hx) b hzb hxb
  omega

/-- **What two cuts leave is legal.** -/
theorem legal_of_cuts (hdistinct : (ids (head ++ middle ++ tail)).Nodup)
    (hahead : NoAnswerAhead (head ++ middle ++ tail)) (hstart : Cut head (middle ++ tail))
    (hstop : Cut (head ++ middle) tail) : Legal (head ++ middle ++ tail) (head ++ tail) := by
  have hsub : head ++ tail ⊆ head ++ middle ++ tail := by
    intro x hx
    simp only [List.mem_append] at hx ⊢
    tauto
  have hkept : ∀ x ∈ head ++ middle ++ tail, x.id ∈ ids (head ++ tail) ↔ x ∉ middle := by
    intro x hx
    rw [id_mem_ids_iff hdistinct hsub hx]
    refine ⟨fun hkept hmiddle => ?_, fun hmiddle => ?_⟩
    · have hnodup := nodup_of_ids hdistinct
      have hdisjoint := (List.nodup_append.mp hnodup).2.2
      rcases List.mem_append.mp hkept with hkept | hkept
      · exact (List.nodup_append.mp (List.nodup_append.mp hnodup).1).2.2 x hkept x hmiddle rfl
      · exact hdisjoint x (List.mem_append_right _ hmiddle) x hkept rfl
    · simp only [List.mem_append] at hx ⊢
      tauto
  constructor
  · intro x hx y hy b hxb hyb hid
    rw [hkept x hx] at hid
    rw [hkept y hy]
    exact fun hym => hid
      (mem_middle_of_batch hstart.toBatchCut hstop.toBatchCut hym hyb hx hxb)
  · intro y hy a ha haction
    obtain ⟨x, hx, hxa⟩ := mem_ids.mp haction
    rw [← hxa]
    by_cases hne : x = y
    · exact hne ▸ id_mem_ids hy
    · have hxy := (Before.total hx (hsub hy) hne).resolve_right
        (hahead y (hsub hy) a ha x hx hxa)
      rw [hkept x hx, mem_middle_iff_of_answer hdistinct hstart hstop hxy ha hxa,
        ← hkept y (hsub hy)]
      exact id_mem_ids hy
  · intro b hb x hx hxb hid y hy later hlater hyl
    rw [hkept x hx, not_not] at hid
    have htail := tail_eq_nil_of_anchor hstop.toBatchCut hb hid hxb
    subst htail
    rw [List.append_nil] at hy
    exact not_mem_head_of_precedes hstart.toBatchCut (mem_dependents.mp hlater).1 hid hxb hyl hy

end

theorem legal_around {events : List Event} {i j : Nat} (hij : i ≤ j)
    (hdistinct : (ids events).Nodup) (hahead : NoAnswerAhead events)
    (hstart : Cut (events.take i) (events.drop i)) (hstop : Cut (events.take j) (events.drop j)) :
    Legal events (events.take i ++ events.drop j) := by
  have hhead : events.take i ++ (events.take j).drop i = events.take j := by
    have hsplit := List.take_append_drop i (events.take j)
    rwa [List.take_take, Nat.min_eq_left hij] at hsplit
  have htail : (events.take j).drop i ++ events.drop j = events.drop i := by
    have hsplit := List.take_append_drop (j - i) (events.drop i)
    rwa [List.drop_drop, Nat.add_sub_cancel' hij, ← List.drop_take] at hsplit
  have hsplit : events.take i ++ (events.take j).drop i ++ events.drop j = events := by
    rw [hhead, List.take_append_drop]
  rw [← htail] at hstart
  rw [← hhead] at hstop
  have hlegal := legal_of_cuts (hsplit.symm ▸ hdistinct) (hsplit.symm ▸ hahead) hstart hstop
  rwa [hsplit] at hlegal

/-! ## The ends of a sequence -/

theorem last_lt_of_mem_spans {events : List Event} {r : Rule} {s : Span}
    (hs : s ∈ r.spans events) (hpos : 0 < events.length) : s.last < events.length := by
  cases r with
  | batchAtomicity =>
    obtain ⟨b, -, hspan⟩ := List.mem_filterMap.mp hs
    simp only [Rule.batchSpan?, Option.bind_eq_bind, Option.bind_eq_some_iff, Option.pure_def,
      Option.some.injEq] at hspan
    obtain ⟨first, -, last, hlast, rfl⟩ := hspan
    exact findLast?_lt hlast
  | toolCallMatching =>
    obtain ⟨⟨e, i⟩, he, hspan⟩ := List.mem_filterMap.mp hs
    simp only [Rule.answerSpan?, Option.bind_eq_bind, Option.bind_eq_some_iff] at hspan
    obtain ⟨a, -, first, -, hspan⟩ := hspan
    split at hspan
    · cases hspan
      exact (List.getElem?_eq_some_iff.mp (List.mem_zipIdx_iff_getElem?.mp he)).1
    · cases hspan
  | reasoningTail =>
    rw [Rule.spans] at hs
    split at hs
    · rw [List.mem_singleton.mp hs]
      exact Nat.sub_lt hpos Nat.one_pos
    · cases hs

theorem ends_mem_cuts {events : List Event} (m : Model) (hpos : 0 < events.length) :
    0 ∈ m.cuts events ∧ events.length + 1 ∈ m.cuts events ∧ events.length ∉ m.cuts events := by
  have hall : allBoundaries events.length = List.range events.length ++ [events.length + 1] :=
    if_neg (Nat.ne_of_gt hpos)
  refine ⟨mem_cuts.mpr ⟨?_, fun r _ s _ => ?_⟩, mem_cuts.mpr ⟨?_, fun r _ s hs => ?_⟩, fun h => ?_⟩
  · rw [hall]
    exact List.mem_append_left _ (List.mem_range.mpr hpos)
  · simp [Span.splits]
  · rw [hall]
    exact List.mem_append_right _ (List.mem_singleton_self _)
  · have hlast := last_lt_of_mem_spans hs hpos
    have hbehind : ¬ events.length + 1 ≤ s.last := by omega
    simp [Span.splits, hbehind]
  · have hmem := (mem_cuts.mp h).1
    rw [hall] at hmem
    simp at hmem

/-- **A model drops nothing around two cuts.** When the events between two places where a sequence
may be cut are taken out, no rule is broken by what is left. -/
theorem enforce_around_cuts (events : List Event) :
    ((ids events).Nodup → AnswersFollow events → ∀ a ∈ Model.standard.cuts events,
      ∀ b ∈ Model.standard.cuts events, a ≤ b →
        Model.standard.enforce (events.take (boundaryOffset events.length a) ++
          events.drop (boundaryOffset events.length b)) events = []) ∧
    (0 < events.length → 0 ∈ Model.standard.cuts events ∧
      events.length + 1 ∈ Model.standard.cuts events ∧
      events.length ∉ Model.standard.cuts events) := by
  refine ⟨fun hdistinct hfollow a ha b hb hab => ?_, ends_mem_cuts .standard⟩
  have hoffset : boundaryOffset events.length a ≤ boundaryOffset events.length b := by
    unfold boundaryOffset
    omega
  refine Model.enforce_eq_nil ?_
  exact legal_around hoffset hdistinct (hfollow.noAnswerAhead (nodup_of_ids hdistinct))
    (cut_of_mem_cuts ha hdistinct) (cut_of_mem_cuts hb hdistinct)

end AgentMemory.Batching

namespace AgentMemory

open Sample (said called reasoned succeeded)

/-- Two batches, the first of two calls and the second the anchor, each with its answers. -/
def Sample.cuttable : List Event :=
  [said "u", called "a1" "b1" "c1", called "a2" "b1" "c2", succeeded "r1" "c1" "a1",
    succeeded "r2" "c2" "a2", said "v", reasoned "a3" "b2" "c3", succeeded "r3" "c3" "a3"]

namespace Batching

open Sample (cuttable)

theorem enforce_around_cuts_cuttable :
    (1 ∈ Model.standard.cuts cuttable ∧ 5 ∈ Model.standard.cuts cuttable) ∧
      Model.standard.enforce (cuttable.take 1 ++ cuttable.drop 5) cuttable = [] ∧
      9 ∈ Model.standard.cuts cuttable ∧ 8 ∉ Model.standard.cuts cuttable := by
  have hfollow : AnswersFollow cuttable := .of_drop (by decide +kernel)
  have hstart : 1 ∈ Model.standard.cuts cuttable := by decide +kernel
  have hstop : 5 ∈ Model.standard.cuts cuttable := by decide +kernel
  obtain ⟨hnil, hends⟩ := enforce_around_cuts cuttable
  exact ⟨⟨hstart, hstop⟩, hnil (by decide) hfollow 1 hstart 5 hstop (by decide),
    (hends (by decide)).2⟩

end Batching
end AgentMemory
