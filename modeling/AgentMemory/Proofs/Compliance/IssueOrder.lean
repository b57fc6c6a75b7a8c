import AgentMemory.Proofs.Compliance.Trace

/-!
# Results in the order of issue

Under the order of issue, a result is out of order when a call of its batch is open that was opened
before. That is so as long as a batch opens each of its calls once. A call that was answered and
then issued again in the same batch stays among those answered, so it never holds others up, and its
own result is out of order as long as any call of the batch waits for its first answer
(`Monitor.violations_of_issue_order`).
-/

namespace AgentMemory.Compliance

open Sample (called succeeded)

variable {trace : List Event} {e : Event} {b : BatchId} {c d : ToolCallId}

/-! ## Calls of a batch -/

/-- A call is open, and was last opened in a batch. -/
def OpenIn (trace : List Event) (b : BatchId) (call : ToolCallId) : Prop :=
  Open trace call ∧ batchOf? trace call = some b

instance : Decidable (OpenIn trace b c) := inferInstanceAs (Decidable (_ ∧ _))

theorem batchOf?_snoc_of_none (h : opens? trace e = none) :
    batchOf? (trace ++ [e]) c = batchOf? trace c := by
  rw [batchOf?, batchOf?, openings_snoc, h, Option.toList_none, List.append_nil]

theorem batchOf?_snoc_of_some {i : Issue} (h : opens? trace e = some i) :
    batchOf? (trace ++ [e]) c = if i.call = c then some i.batch else batchOf? trace c := by
  rw [batchOf?, batchOf?, openings_snoc, h, Option.toList_some, List.reverse_append,
    List.reverse_singleton, List.singleton_append, List.find?_cons]
  by_cases hcall : i.call = c <;> simp [hcall]

theorem opens?_eq_some_iff {i : Issue} :
    opens? trace e = some i ↔ issue? e = some i ∧ ¬ Open trace i.call := by
  rw [opens?, Option.filter_eq_some_iff, decide_eq_true_eq]

theorem closes?_eq_some_iff :
    closes? trace e = some ⟨b, c⟩ ↔ Answers e c ∧ OpenIn trace b c := by
  constructor
  · intro h
    obtain ⟨a, ha, h⟩ := Option.bind_eq_some_iff.mp h
    split at h
    · rename_i hopen
      obtain ⟨b', hb, heq⟩ := Option.map_eq_some_iff.mp h
      cases heq
      exact ⟨by rw [Answers, ha, Option.map_some], hopen, hb⟩
    · exact absurd h (Option.some_ne_none _).symm
  · rintro ⟨he, hopen, hb⟩
    obtain ⟨a, ha, rfl⟩ := Option.map_eq_some_iff.mp he
    simp [closes?, ha, hopen, hb]

theorem openIn_snoc : OpenIn (trace ++ [e]) b c ↔
    opens? trace e = some ⟨b, c⟩ ∨ OpenIn trace b c ∧ closes? trace e ≠ some ⟨b, c⟩ := by
  rw [ne_eq, closes?_eq_some_iff]
  cases h : opens? trace e with
  | none =>
    -- an action that opens nothing issues a call that is open
    have hopen : Issues e c → Open trace c := fun hissues => by
      obtain ⟨i, hi, rfl⟩ := Option.map_eq_some_iff.mp hissues
      by_contra hopen
      rw [opens?_eq_some_iff.mpr ⟨hi, hopen⟩] at h
      exact Option.some_ne_none _ h
    have hanswers : Issues e c → ¬ Answers e c := Issues.not_answers
    rw [OpenIn, OpenIn, open_snoc, batchOf?_snoc_of_none h]
    simp only [reduceCtorEq, false_or]
    tauto
  | some i =>
    obtain ⟨b', c'⟩ := i
    obtain ⟨hissue, hopen⟩ := opens?_eq_some_iff.mp h
    rw [OpenIn, OpenIn, open_snoc, batchOf?_snoc_of_some h]
    by_cases hcall : c' = c
    · subst hcall
      simp [issues_iff hissue, hopen]
    · simp [issues_iff hissue, not_answers hissue, hcall, Ne.symm hcall]

theorem count_toList {α : Type} [DecidableEq α] (o : Option α) (x : α) :
    o.toList.count x = if o = some x then 1 else 0 := by
  cases o with
  | none => simp
  | some y => simp [List.count_singleton]

theorem count_openings (trace : List Event) (b : BatchId) (c : ToolCallId) :
    (openings trace).count ⟨b, c⟩ =
      (closings trace).count ⟨b, c⟩ + if OpenIn trace b c then 1 else 0 := by
  induction trace using List.reverseRecOn with
  | nil => simp [openings, closings, along, OpenIn, Open]
  | append_singleton trace e ih =>
    have hopens : opens? trace e = some ⟨b, c⟩ → ¬ OpenIn trace b c ∧
        closes? trace e ≠ some ⟨b, c⟩ := fun h => by
      have hopen : ¬ OpenIn trace b c := fun hopen => (opens?_eq_some_iff.mp h).2 hopen.1
      exact ⟨hopen, fun hcloses => hopen (closes?_eq_some_iff.mp hcloses).2⟩
    have hcloses : closes? trace e = some ⟨b, c⟩ → OpenIn trace b c := fun h =>
      (closes?_eq_some_iff.mp h).2
    rw [openings_snoc, closings_snoc, List.count_append, List.count_append, count_toList,
      count_toList, ih]
    simp only [openIn_snoc]
    by_cases ho : opens? trace e = some ⟨b, c⟩
    · simp [ho, hopens ho]
    · by_cases hc : closes? trace e = some ⟨b, c⟩
      · simp [ho, hc, hcloses hc]
      · simp [ho, hc]

theorem count_ofBatch (issues : List Issue) :
    (ofBatch b issues).count c = issues.count ⟨b, c⟩ := by
  induction issues with
  | nil => rfl
  | cons i issues ih =>
    obtain ⟨b', c'⟩ := i
    rw [List.count_cons, ← ih, ofBatch, List.filter_cons]
    by_cases hb : b' = b <;> simp [ofBatch, hb, List.count_cons]

/-! ## Calls held up -/

/-- A batch has closed a call. -/
def ClosedIn (trace : List Event) (b : BatchId) (c : ToolCallId) : Prop :=
  c ∈ ofBatch b (closings trace)

/-- A batch opened a call for the last time before it opened another one for the last time. -/
def OpenedBefore (trace : List Event) (b : BatchId) (d c : ToolCallId) : Prop :=
  ∃ xs ys, ofBatch b (openings trace) = xs ++ d :: ys ∧ d ∉ ys ∧ c ∈ ys

/-- Some other call of the batch waits for its first result, and the batch opened it before the call
or has closed the call already. -/
def HeldUp (trace : List Event) (b : BatchId) (c : ToolCallId) : Prop :=
  ∃ d, d ≠ c ∧ OpenIn trace b d ∧ ¬ ClosedIn trace b d ∧
    (ClosedIn trace b c ∨ OpenedBefore trace b d c)

theorem count_of_not_closedIn (h : ¬ ClosedIn trace b c) :
    (ofBatch b (openings trace)).count c = if OpenIn trace b c then 1 else 0 := by
  rw [count_ofBatch, count_openings, ← count_ofBatch, List.count_eq_zero.mpr h, Nat.zero_add]

theorem mem_openings_of_openIn (h : OpenIn trace b c) : c ∈ ofBatch b (openings trace) := by
  rw [← List.count_pos_iff, count_ofBatch, count_openings, if_pos h]
  exact Nat.succ_pos _

theorem openIn_of_mem_openings (h : ¬ ClosedIn trace b c) (hc : c ∈ ofBatch b (openings trace)) :
    OpenIn trace b c := by
  by_contra hopen
  have hcount := count_of_not_closedIn h
  rw [if_neg hopen] at hcount
  exact List.count_eq_zero.mp hcount hc

theorem not_mem_of_split {xs ys : List ToolCallId} (h : ¬ ClosedIn trace b c)
    (hsplit : ofBatch b (openings trace) = xs ++ c :: ys) : c ∉ xs ∧ c ∉ ys := by
  have hcount : (ofBatch b (openings trace)).count c ≤ 1 := by
    rw [count_of_not_closedIn h]
    split <;> omega
  rw [hsplit, List.count_append, List.count_cons_self] at hcount
  exact ⟨List.count_eq_zero.mp (by omega), List.count_eq_zero.mp (by omega)⟩

section

variable {issued resolved : List ToolCallId}

theorem next?_eq_some_iff : Order.next? issued resolved = some c ↔
    c ∉ resolved ∧ ∃ xs ys, issued = xs ++ c :: ys ∧ ∀ x ∈ xs, x ∈ resolved := by
  simp [Order.next?, List.find?_eq_some_iff_append]

theorem next?_eq_none_iff : Order.next? issued resolved = none ↔ ∀ x ∈ issued, x ∈ resolved := by
  simp [Order.next?]

end

/-- The first call of a batch that the batch has not closed. -/
def nextIn? (trace : List Event) (b : BatchId) : Option ToolCallId :=
  Order.next? (ofBatch b (openings trace)) (ofBatch b (closings trace))

theorem heldUp_iff (hopen : OpenIn trace b c) :
    HeldUp trace b c ↔ ∃ d ≠ c, nextIn? trace b = some d := by
  constructor
  · rintro ⟨d, hne, hd, hclosed, h⟩
    cases hnext : nextIn? trace b with
    | none => exact absurd (next?_eq_none_iff.mp hnext d (mem_openings_of_openIn hd)) hclosed
    | some first =>
      refine ⟨first, ?_, rfl⟩
      rintro rfl
      obtain ⟨hfirst, as, bs, hsplit, hbefore⟩ := next?_eq_some_iff.mp hnext
      obtain ⟨xs, ys, hxy, -, hys⟩ := h.resolve_left hfirst
      -- the call is opened once, so it cannot be both the first one and behind the other
      rcases List.append_eq_append_iff.mp (hsplit.symm.trans hxy) with ⟨zs, -, hzs⟩ | ⟨zs, has, hzs⟩
      · rcases List.cons_eq_append_iff.mp hzs with ⟨-, hcons⟩ | ⟨zs', -, rfl⟩
        · exact hne (List.cons.inj hcons).1
        · exact (not_mem_of_split hfirst hsplit).2 (by simp [hys])
      · rcases List.cons_eq_append_iff.mp hzs with ⟨-, hcons⟩ | ⟨zs', rfl, -⟩
        · exact hne (List.cons.inj hcons).1.symm
        · exact hclosed (hbefore d (by simp [has]))
  · rintro ⟨d, hne, hnext⟩
    obtain ⟨hclosed, xs, ys, hsplit, hbefore⟩ := next?_eq_some_iff.mp hnext
    have hmem : d ∈ ofBatch b (openings trace) := by simp [hsplit]
    refine ⟨d, hne, openIn_of_mem_openings hclosed hmem, hclosed, ?_⟩
    by_cases hc : ClosedIn trace b c
    · exact Or.inl hc
    · refine Or.inr ⟨xs, ys, hsplit, (not_mem_of_split hclosed hsplit).2, ?_⟩
      have hcmem := mem_openings_of_openIn hopen
      rw [hsplit, List.mem_append, List.mem_cons] at hcmem
      rcases hcmem with hxs | rfl | hys
      · exact absurd (hbefore c hxs) hc
      · exact absurd rfl hne
      · exact hys

/-! ## What is reported -/

theorem departures_of_answers {order : Order} (he : Answers e c) :
    departures order trace e = ofAnswer order trace e.id c := by
  cases hbody : e.body <;> simp_all [Answers, Event.answer?, departures]

theorem inTurn_issue_iff (hopen : OpenIn trace b c) :
    InTurn .issue trace c ↔ ¬ HeldUp trace b c := by
  have hturn : InTurn .issue trace c ↔ (nextIn? trace b).all (· = c) = true := by
    simp [InTurn, hopen.2, Order.issue, nextIn?]
  rw [hturn, heldUp_iff hopen]
  cases nextIn? trace b <;> simp

theorem heldUp_iff_of_nodup (hopen : OpenIn trace b c)
    (hnodup : (ofBatch b (openings trace)).Nodup) :
    HeldUp trace b c ↔ ∃ d ≠ c, OpenIn trace b d ∧ OpenedBefore trace b d c := by
  have hclosed : ∀ d, OpenIn trace b d → ¬ ClosedIn trace b d := fun d hd => by
    have hcount := List.nodup_iff_count_le_one.mp hnodup d
    rw [count_ofBatch, count_openings, if_pos hd, ← count_ofBatch] at hcount
    exact List.count_eq_zero.mp (by omega)
  constructor
  · rintro ⟨d, hne, hd, -, h⟩
    exact ⟨d, hne, hd, h.resolve_left (hclosed c hopen)⟩
  · rintro ⟨d, hne, hd, h⟩
    exact ⟨d, hne, hd, hclosed d hd, Or.inr h⟩

/-- **Under the order of issue, a result of an open call is out of order exactly if the call is held
up.** That is by an open call opened before, as long as the batch opens each call once. -/
theorem Monitor.violations_of_issue_order (he : Answers e c) (hopen : OpenIn trace b c) :
    (HeldUp trace b c → ((Monitor.after .issue trace).step e).violations =
      [.outOfOrder e.id c "issue"]) ∧
    (¬ HeldUp trace b c → ((Monitor.after .issue trace).step e).violations = []) ∧
    ((ofBatch b (openings trace)).Nodup →
      (HeldUp trace b c ↔ ∃ d ≠ c, OpenIn trace b d ∧ OpenedBefore trace b d c)) := by
  have hpolicy : Order.issue.NeverFails := fun _ _ _ => Option.some_ne_none _
  have hturn : InTurn .issue trace c ↔ ¬ HeldUp trace b c := inTurn_issue_iff hopen
  rw [Monitor.after_eq_told hpolicy, Monitor.told_step hpolicy, departures_of_answers he, ofAnswer,
    if_neg (not_not.mpr hopen.1.mem_issuedCalls), if_neg (not_not.mpr hopen.1)]
  exact ⟨fun h => if_pos fun hin => hturn.mp hin h, fun h => if_neg (not_not.mpr (hturn.mpr h)),
    heldUp_iff_of_nodup hopen⟩

/-- A call that is answered, issued again in its batch and then followed by another one. -/
def reopened : List Event :=
  [called "a1" "b" "c1", succeeded "r1" "c1" "a1", called "a2" "b" "c1", called "a3" "b" "c2"]

/-- The later call waits for its first result, so it is not held up, and holds up the one issued
again. -/
theorem Monitor.violations_of_issue_order_reopened :
    OpenIn reopened ⟨"b"⟩ ⟨"c1"⟩ ∧ OpenIn reopened ⟨"b"⟩ ⟨"c2"⟩ ∧
      ((Monitor.after .issue reopened).step (succeeded "r2" "c1" "a2")).violations =
        [.outOfOrder ⟨"r2"⟩ ⟨"c1"⟩ "issue"] ∧
      ((Monitor.after .issue reopened).step (succeeded "r2" "c2" "a3")).violations = [] := by
  have hagain : OpenIn reopened ⟨"b"⟩ ⟨"c1"⟩ := by decide +kernel
  have hlater : OpenIn reopened ⟨"b"⟩ ⟨"c2"⟩ := by decide +kernel
  have hnext : nextIn? reopened ⟨"b"⟩ = some ⟨"c2"⟩ := by decide +kernel
  have hheld : HeldUp reopened ⟨"b"⟩ ⟨"c1"⟩ :=
    (heldUp_iff hagain).mpr ⟨⟨"c2"⟩, by decide, hnext⟩
  have hfree : ¬ HeldUp reopened ⟨"b"⟩ ⟨"c2"⟩ := by
    rw [heldUp_iff hlater, hnext]
    simp
  have he : Answers (succeeded "r2" "c1" "a2") ⟨"c1"⟩ := rfl
  have he' : Answers (succeeded "r2" "c2" "a3") ⟨"c2"⟩ := rfl
  exact ⟨hagain, hlater, (Monitor.violations_of_issue_order he hagain).1 hheld,
    (Monitor.violations_of_issue_order he' hlater).2.1 hfree⟩

/-- The call issued again is open and was opened before the later one, but the later one may be
answered first, and the call issued again may not. -/
theorem Monitor.order_of_reopened :
    (OpenIn reopened ⟨"b"⟩ ⟨"c2"⟩ ∧
      (∃ d ≠ ⟨"c2"⟩, OpenIn reopened ⟨"b"⟩ d ∧ OpenedBefore reopened ⟨"b"⟩ d ⟨"c2"⟩) ∧
      ((Monitor.after .issue reopened).step (succeeded "r2" "c2" "a3")).violations = []) ∧
    OpenIn reopened ⟨"b"⟩ ⟨"c1"⟩ ∧
      (¬ ∃ d ≠ ⟨"c1"⟩, OpenIn reopened ⟨"b"⟩ d ∧ OpenedBefore reopened ⟨"b"⟩ d ⟨"c1"⟩) ∧
      ((Monitor.after .issue reopened).step (succeeded "r2" "c1" "a2")).violations =
        [.outOfOrder ⟨"r2"⟩ ⟨"c1"⟩ "issue"] := by
  have hopenings : ofBatch ⟨"b"⟩ (openings reopened) = [⟨"c1"⟩, ⟨"c1"⟩, ⟨"c2"⟩] := by decide +kernel
  refine ⟨⟨by decide +kernel, ⟨⟨"c1"⟩, by decide, by decide +kernel, ?_⟩, by decide +kernel⟩,
    by decide +kernel, ?_, by decide +kernel⟩
  · exact ⟨[⟨"c1"⟩], [⟨"c2"⟩], hopenings, by decide, by decide⟩
  · rintro ⟨d, hne, -, xs, ys, hsplit, -, hc⟩
    rw [hopenings] at hsplit
    rcases xs with _ | ⟨x, _ | ⟨y, xs⟩⟩
    · exact hne (List.cons.inj hsplit).1.symm
    · exact hne (List.cons.inj (List.cons.inj hsplit).2).1.symm
    · cases xs <;> simp_all

end AgentMemory.Compliance
