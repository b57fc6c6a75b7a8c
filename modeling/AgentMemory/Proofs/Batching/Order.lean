import AgentMemory.Proofs.Order

/-!
# Order of batches

Batches are listed in the order of their first events. `Precedes` is that order said on its own; the
batches after a given one and the anchor of a sequence are told by it. A batch depends on an earlier
one unless a condensation between the two released it, that is, forgot an event of the earlier.
-/

namespace AgentMemory.Batching

/-! ## Batches and their events -/

theorem mem_batchIds {events : List Event} {b : BatchId} :
    b ∈ batchIds events ↔ ∃ e ∈ events, e.batch? = some b := by
  simp only [batchIds, List.mem_eraseDups, List.mem_filterMap]

theorem mem_members {events : List Event} {b : BatchId} {e : Event} :
    e ∈ members b events ↔ e ∈ events ∧ e.batch? = some b := by
  simp only [members, List.mem_filter, inBatch, decide_eq_true_eq]

theorem inBatch_iff {b : BatchId} {e : Event} : inBatch b e = true ↔ e.batch? = some b := by
  simp only [inBatch, decide_eq_true_eq]

theorem mem_ids_members {events : List Event} {b : BatchId} {id : EventId} :
    id ∈ ids (members b events) ↔ ∃ e ∈ events, e.batch? = some b ∧ e.id = id := by
  simp only [mem_ids, mem_members, and_assoc]

theorem batchIds_append (xs ys : List Event) :
    batchIds (xs ++ ys) = batchIds xs ++
      ((ys.filterMap Event.batch?).filter (· ∉ batchIds xs)).eraseDups := by
  rw [batchIds, List.filterMap_append, List.eraseDups_append, ← batchIds, List.removeAll]
  congr 2
  refine List.filter_congr fun b _ => ?_
  simp only [batchIds, List.mem_eraseDups, List.elem_eq_mem, decide_not]

theorem batchIds_snoc_of_mem {events : List Event} {e : Event}
    (he : ∀ b, e.batch? = some b → b ∈ batchIds events) :
    batchIds (events ++ [e]) = batchIds events := by
  rw [batchIds_append]
  cases hb : e.batch? with
  | none => simp [hb]
  | some b =>
    have hmem := he b hb
    simp only [List.filterMap_cons, List.filterMap_nil, hb, List.filter_cons, hmem]
    simp

theorem batchIds_snoc_of_not_mem {events : List Event} {e : Event} {b : BatchId}
    (he : e.batch? = some b) (hb : b ∉ batchIds events) :
    batchIds (events ++ [e]) = batchIds events ++ [b] := by
  rw [batchIds_append]
  simp only [List.filterMap_cons, List.filterMap_nil, he, List.filter_cons, hb]
  simp [List.eraseDups_cons]

/-! ## Beginnings -/

theorem firstAt?_append (b : BatchId) (xs ys : List Event) :
    firstAt? b (xs ++ ys) = (firstAt? b xs).or ((firstAt? b ys).map (· + xs.length)) := by
  simp only [firstAt?, List.findIdx?_append]

theorem firstAt?_isSome {b : BatchId} {events : List Event} :
    (firstAt? b events).isSome ↔ b ∈ batchIds events := by
  simp only [firstAt?, List.findIdx?_isSome, List.any_eq_true, inBatch_iff, mem_batchIds]

theorem exists_firstAt? {b : BatchId} {events : List Event} (hb : b ∈ batchIds events) :
    ∃ i, firstAt? b events = some i := Option.isSome_iff_exists.mp (firstAt?_isSome.mpr hb)

theorem firstAt?_eq_some_iff {b : BatchId} {events : List Event} {i : Nat} :
    firstAt? b events = some i ↔
      ∃ before e after, events = before ++ e :: after ∧ before.length = i ∧ e.batch? = some b ∧
        ∀ x ∈ before, x.batch? ≠ some b := by
  rw [firstAt?, List.findIdx?_eq_some_iff_getElem]
  constructor
  · rintro ⟨hi, he, hbefore⟩
    refine ⟨events.take i, events[i], events.drop (i + 1), ?_, ?_, inBatch_iff.mp he, ?_⟩
    · simp
    · rw [List.length_take]
      omega
    · intro x hx
      obtain ⟨k, hk, rfl⟩ := List.mem_take_iff_getElem.mp hx
      exact fun hk' => hbefore k (by omega) (inBatch_iff.mpr hk')
  · rintro ⟨before, e, after, rfl, rfl, he, hbefore⟩
    refine ⟨by simp, ?_, fun k hk => ?_⟩
    · simpa [inBatch_iff] using he
    · have hne := hbefore _ (List.getElem_mem hk)
      rw [List.getElem_append_left hk]
      rwa [inBatch_iff]

theorem length_le_firstAt?_iff {b : BatchId} {before after : List Event} {i : Nat}
    (h : firstAt? b (before ++ after) = some i) :
    before.length ≤ i ↔ ∀ x ∈ before, x.batch? ≠ some b := by
  rw [firstAt?_append] at h
  by_cases hb : b ∈ batchIds before
  · obtain ⟨k, hk⟩ := exists_firstAt? hb
    rw [hk, Option.some_or] at h
    cases h
    obtain ⟨x, hx, hxb⟩ := mem_batchIds.mp hb
    obtain ⟨xs, e, ys, rfl, rfl, -, -⟩ := firstAt?_eq_some_iff.mp hk
    constructor
    · intro hle
      simp only [List.length_append, List.length_cons] at hle
      omega
    · exact fun hnone => absurd hxb (hnone x hx)
  · have hnone : firstAt? b before = none := by
      rwa [← Option.not_isSome_iff_eq_none, firstAt?_isSome]
    rw [hnone, Option.none_or, Option.map_eq_some_iff] at h
    obtain ⟨k, -, rfl⟩ := h
    exact iff_of_true (by omega) fun x hx hxb => hb (mem_batchIds.mpr ⟨x, hx, hxb⟩)

/-- One batch begins before another. -/
def Precedes (events : List Event) (b later : BatchId) : Prop :=
  ∃ i j, firstAt? b events = some i ∧ firstAt? later events = some j ∧ i < j

namespace Precedes

variable {events : List Event} {b later : BatchId}

theorem asymm (h : Precedes events b later) : ¬ Precedes events later b := by
  obtain ⟨i, j, hi, hj, hlt⟩ := h
  rintro ⟨j', i', hj', hi', hlt'⟩
  rw [hi] at hi'
  rw [hj] at hj'
  cases hi'
  cases hj'
  omega

theorem irrefl : ¬ Precedes events b b := fun h => h.asymm h

theorem mem_left (h : Precedes events b later) : b ∈ batchIds events := by
  obtain ⟨i, j, hi, -, -⟩ := h
  exact firstAt?_isSome.mp (by simp [hi])

theorem mem_right (h : Precedes events b later) : later ∈ batchIds events := by
  obtain ⟨i, j, -, hj, -⟩ := h
  exact firstAt?_isSome.mp (by simp [hj])

theorem total (hb : b ∈ batchIds events) (hlater : later ∈ batchIds events) (hne : b ≠ later) :
    Precedes events b later ∨ Precedes events later b := by
  obtain ⟨i, hi⟩ := exists_firstAt? hb
  obtain ⟨j, hj⟩ := exists_firstAt? hlater
  rcases Nat.lt_trichotomy i j with hlt | rfl | hlt
  · exact Or.inl ⟨i, j, hi, hj, hlt⟩
  · obtain ⟨xs, e, ys, rfl, hlen, he, -⟩ := firstAt?_eq_some_iff.mp hi
    obtain ⟨xs', e', ys', hsplit, hlen', he', -⟩ := firstAt?_eq_some_iff.mp hj
    obtain ⟨-, htail⟩ := List.append_inj hsplit (hlen.trans hlen'.symm)
    obtain ⟨rfl, -⟩ := List.cons.inj htail
    exact absurd (Option.some.inj (he.symm.trans he')) hne
  · exact Or.inr ⟨j, i, hj, hi, hlt⟩

theorem append (h : Precedes events b later) (more : List Event) :
    Precedes (events ++ more) b later := by
  obtain ⟨i, j, hi, hj, hlt⟩ := h
  exact ⟨i, j, by simp [firstAt?_append, hi], by simp [firstAt?_append, hj], hlt⟩

end Precedes

theorem pairwise_batchIds (events : List Event) : (batchIds events).Pairwise (Precedes events) := by
  induction events using List.reverseRecOn with
  | nil => exact List.Pairwise.nil
  | append_singleton events e ih =>
    by_cases hnew : ∃ b, e.batch? = some b ∧ b ∉ batchIds events
    · obtain ⟨b, he, hb⟩ := hnew
      rw [batchIds_snoc_of_not_mem he hb]
      refine List.pairwise_append.mpr ⟨ih.imp fun h => h.append _, List.pairwise_singleton _ _, ?_⟩
      intro c hc d hd
      rw [List.mem_singleton] at hd
      subst hd
      obtain ⟨i, hi⟩ := exists_firstAt? hc
      obtain ⟨xs, x, ys, rfl, rfl, -, -⟩ := firstAt?_eq_some_iff.mp hi
      refine ⟨xs.length, (xs ++ x :: ys).length, by rw [firstAt?_append, hi]; rfl, ?_, by simp⟩
      refine firstAt?_eq_some_iff.mpr ⟨xs ++ x :: ys, e, [], rfl, rfl, he, fun y hy hyd => ?_⟩
      exact hb (mem_batchIds.mpr ⟨y, hy, hyd⟩)
    · rw [batchIds_snoc_of_mem fun b hb => by
        by_contra hmem
        exact hnew ⟨b, hb, hmem⟩]
      exact ih.imp fun h => h.append _

/-- In a list ordered by an asymmetric relation, what comes after an element is what it precedes. -/
private theorem mem_drop_dropWhile {α : Type} [DecidableEq α] {r : α → α → Prop}
    (hr : ∀ {a b}, r a b → ¬ r b a) {l : List α} (hl : l.Pairwise r) (a x : α) :
    x ∈ (l.dropWhile (· ≠ a)).drop 1 ↔ a ∈ l ∧ x ∈ l ∧ r a x := by
  induction l with
  | nil => simp
  | cons y l ih =>
    obtain ⟨hy, hl⟩ := List.pairwise_cons.mp hl
    by_cases hya : y = a
    · subst hya
      simp only [List.dropWhile_cons, ne_eq, not_true_eq_false, decide_false, Bool.false_eq_true,
        if_false, List.drop_succ_cons, List.drop_zero, List.mem_cons, true_or, true_and]
      refine ⟨fun hx => ⟨Or.inr hx, hy x hx⟩, ?_⟩
      rintro ⟨rfl | hx, hyx⟩
      · exact absurd hyx (hr hyx)
      · exact hx
    · rw [List.dropWhile_cons_of_pos (by simpa using hya), ih hl]
      simp only [List.mem_cons]
      refine ⟨fun ⟨ha, hx, hax⟩ => ⟨Or.inr ha, Or.inr hx, hax⟩, ?_⟩
      rintro ⟨rfl | ha, hx, hax⟩
      · exact absurd rfl hya
      · rcases hx with rfl | hx
        · exact absurd hax (hr (hy a ha))
        · exact ⟨ha, hx, hax⟩

theorem mem_batchesAfter {events : List Event} {b later : BatchId} :
    later ∈ batchesAfter b events ↔ Precedes events b later := by
  rw [batchesAfter, mem_drop_dropWhile Precedes.asymm (pairwise_batchIds events)]
  exact ⟨fun h => h.2.2, fun h => ⟨h.mem_left, h.mem_right, h⟩⟩

theorem precedes_congr {xs ys : List Event} {b later : BatchId} (h : batchIds xs = batchIds ys) :
    Precedes xs b later ↔ Precedes ys b later := by
  rw [← mem_batchesAfter, ← mem_batchesAfter, batchesAfter, batchesAfter, h]

theorem Precedes.split {events : List Event} {b later : BatchId} (h : Precedes events b later) :
    ∃ before x after, events = before ++ x :: after ∧ x.batch? = some b ∧
      (∀ y ∈ before, y.batch? ≠ some b ∧ y.batch? ≠ some later) ∧
      ∃ y ∈ after, y.batch? = some later := by
  have hne : b ≠ later := fun hb => Precedes.irrefl (hb ▸ h)
  obtain ⟨y, hy, hyl⟩ := mem_batchIds.mp h.mem_right
  obtain ⟨i, j, hi, hj, hlt⟩ := h
  obtain ⟨xs, x, ys, rfl, rfl, hx, hxs⟩ := firstAt?_eq_some_iff.mp hi
  have hlater : ∀ z ∈ xs, z.batch? ≠ some later := (length_le_firstAt?_iff hj).mp (by omega)
  refine ⟨xs, x, ys, rfl, hx, fun z hz => ⟨hxs z hz, hlater z hz⟩, y, ?_, hyl⟩
  rcases List.mem_append.mp hy with hy | hy
  · exact absurd hyl (hlater y hy)
  · rcases List.mem_cons.mp hy with rfl | hy
    · exact absurd (Option.some.inj (hx.symm.trans hyl)) hne
    · exact hy

theorem precedes_iff_before {events : List Event} (hdistinct : (ids events).Nodup)
    {b later : BatchId} :
    Precedes events b later ↔ later ∈ batchIds events ∧
      ∃ x ∈ events, x.batch? = some b ∧
        ∀ y ∈ events, y.batch? = some later → Before events x y := by
  have hnodup := nodup_of_ids hdistinct
  constructor
  · intro h
    refine ⟨h.mem_right, ?_⟩
    have hne : b ≠ later := fun hb => Precedes.irrefl (hb ▸ h)
    obtain ⟨xs, x, ys, rfl, hx, hxs, -⟩ := h.split
    refine ⟨x, by simp, hx, fun y hy hyl => ?_⟩
    rcases List.mem_append.mp hy with hy | hy
    · exact absurd hyl (hxs y hy).2
    · rcases List.mem_cons.mp hy with rfl | hy
      · exact absurd (Option.some.inj (hx.symm.trans hyl)) hne
      · exact Before.of_split hy
  · rintro ⟨hlater, x, hx, hxb, hbefore⟩
    have hb : b ∈ batchIds events := mem_batchIds.mpr ⟨x, hx, hxb⟩
    have hne : b ≠ later := by
      rintro rfl
      exact (hbefore x hx hxb).ne hnodup rfl
    rcases Precedes.total hb hlater hne with h | h
    · exact h
    · obtain ⟨xs, z, ys, rfl, hz, hxs, -⟩ := h.split
      have hxz := hbefore z (by simp) hz
      rcases List.mem_append.mp hx with hx | hx
      · exact absurd hxb (hxs x hx).2
      · rcases List.mem_cons.mp hx with rfl | hx
        · exact absurd rfl (hxz.ne hnodup)
        · exact absurd (Before.of_split hx) (hxz.asymm hnodup)

theorem Precedes.restrict {events part : List Event} (hdistinct : (ids events).Nodup)
    (hpart : part.Sublist events) {b later : BatchId} (h : Precedes events b later)
    (hb : ∀ x ∈ events, x.batch? = some b → x ∈ part) (hlater : later ∈ batchIds part) :
    Precedes part b later := by
  obtain ⟨-, x, hx, hxb, hbefore⟩ := (precedes_iff_before hdistinct).mp h
  have hpartDistinct : (ids part).Nodup := hdistinct.sublist (hpart.map _)
  refine (precedes_iff_before hpartDistinct).mpr ⟨hlater, x, hb x hx hxb, hxb, fun y hy hyl => ?_⟩
  exact (hbefore y (hpart.subset hy) hyl).restrict (nodup_of_ids hdistinct) hpart (hb x hx hxb) hy

/-! ## The anchor -/

def Reasons (events : List Event) (b : BatchId) : Prop :=
  ∃ e ∈ events, e.batch? = some b ∧ e.hasReasoning = true

theorem Reasons.mem {events : List Event} {b : BatchId} (h : Reasons events b) :
    b ∈ batchIds events := by
  obtain ⟨e, he, heb, -⟩ := h
  exact mem_batchIds.mpr ⟨e, he, heb⟩

theorem any_hasReasoning_members {events : List Event} {b : BatchId} :
    (members b events).any Event.hasReasoning = true ↔ Reasons events b := by
  simp only [List.any_eq_true, mem_members, Reasons, and_assoc]

theorem anchor?_eq_some_iff {events : List Event} {b : BatchId} :
    anchor? events = some b ↔
      Reasons events b ∧ ∀ later, Precedes events b later → ¬ Reasons events later := by
  rw [anchor?, List.find?_eq_some_iff_append]
  simp only [any_hasReasoning_members]
  constructor
  · rintro ⟨hb, ls, es, hsplit, hls⟩
    refine ⟨hb, fun later hlater hreasons => ?_⟩
    have hrev : batchIds events = es.reverse ++ b :: ls.reverse := by
      rw [← List.reverse_reverse (batchIds events), hsplit]
      simp
    have hpairs := pairwise_batchIds events
    have hmem := hreasons.mem
    rw [hrev] at hpairs hmem
    obtain ⟨-, -, hbefore⟩ := List.pairwise_append.mp hpairs
    rcases List.mem_append.mp hmem with hmem | hmem
    · exact hlater.asymm (hbefore later hmem b (by simp))
    · rcases List.mem_cons.mp hmem with rfl | hmem
      · exact hlater.irrefl
      · have := hls later (List.mem_reverse.mp hmem)
        simp only [Bool.not_eq_true', ← Bool.not_eq_true, any_hasReasoning_members] at this
        exact this hreasons
  · rintro ⟨hb, hlast⟩
    obtain ⟨es, ls, hsplit⟩ := List.append_of_mem hb.mem
    refine ⟨hb, ls.reverse, es.reverse, by simp [hsplit], fun later hlater => ?_⟩
    have hpairs := pairwise_batchIds events
    rw [hsplit] at hpairs
    obtain ⟨-, hafter, -⟩ := List.pairwise_append.mp hpairs
    simp only [Bool.not_eq_true', ← Bool.not_eq_true, any_hasReasoning_members]
    exact hlast later ((List.pairwise_cons.mp hafter).1 later (List.mem_reverse.mp hlater))

/-! ## Endings -/

theorem exists_last {p : Event → Bool} {events : List Event} (h : ∃ e ∈ events, p e = true) :
    ∃ before e after, events = before ++ e :: after ∧ p e = true ∧ ∀ x ∈ after, p x = false := by
  induction events with
  | nil => simp at h
  | cons x events ih =>
    by_cases hrest : ∃ e ∈ events, p e = true
    · obtain ⟨before, e, after, rfl, he, hafter⟩ := ih hrest
      exact ⟨x :: before, e, after, rfl, he, hafter⟩
    · obtain ⟨e, he, hpe⟩ := h
      rcases List.mem_cons.mp he with rfl | he
      · refine ⟨[], e, events, rfl, hpe, fun y hy => ?_⟩
        by_contra hpy
        exact hrest ⟨y, hy, by simpa using hpy⟩
      · exact absurd ⟨e, he, hpe⟩ hrest

theorem findLast?_of_split {p : Event → Bool} {before after : List Event} {e : Event}
    (he : p e = true) (hafter : ∀ x ∈ after, p x = false) :
    findLast? p (before ++ e :: after) = some before.length := by
  have hidx : (before ++ e :: after).reverse.findIdx? p = some after.length := by
    rw [List.reverse_append, List.reverse_cons, List.append_assoc, List.singleton_append,
      List.findIdx?_append, List.findIdx?_eq_none_iff.mpr (by simpa using hafter),
      List.findIdx?_cons, if_pos he]
    simp
  rw [findLast?, hidx]
  simp only [Option.map_some, List.length_append, List.length_cons]
  congr 1
  omega

theorem horizon_of_split {b : BatchId} {before after : List Event} {e : Event}
    (he : e.batch? = some b) (hafter : ∀ x ∈ after, x.batch? ≠ some b) :
    horizon b (before ++ e :: after) = before.length + 1 +
      after.findIdx (forgetsAny (ids (members b (before ++ e :: after)))) := by
  have hlast : lastAt? b (before ++ e :: after) = some before.length :=
    findLast?_of_split (inBatch_iff.mpr he) fun x hx => by
      simpa only [← Bool.not_eq_true, inBatch_iff] using hafter x hx
  have hdrop : (before ++ e :: after).drop (before.length + 1) = after := by simp
  simp only [horizon, hlast, hdrop, List.findIdx_eq_getD_findIdx?]
  cases List.findIdx? (forgetsAny (ids (members b (before ++ e :: after)))) after with
  | none =>
    simp only [Option.getD_none, List.length_append, List.length_cons]
    omega
  | some i => rfl

/-! ## Release -/

/-- A condensation released a later batch from an earlier one: it comes after the last event of the
earlier and before the first of the later, and forgets an event of the earlier. -/
def Released (events : List Event) (b later : BatchId) : Prop :=
  ∃ before e after, events = before ++ e :: after ∧ (∀ x ∈ before, x.batch? ≠ some later) ∧
    (∀ x ∈ after, x.batch? ≠ some b) ∧ forgetsAny (ids (members b events)) e = true

theorem batch?_of_forgetsAny {forgotten : List EventId} {e : Event}
    (h : forgetsAny forgotten e = true) : e.batch? = none := by
  cases hbody : e.body <;> simp_all [forgetsAny, Event.asCondensation?, Event.batch?]

theorem exists_last_of_batch {events : List Event} {b : BatchId} (hb : b ∈ batchIds events) :
    ∃ before e after, events = before ++ e :: after ∧ e.batch? = some b ∧
      ∀ x ∈ after, x.batch? ≠ some b := by
  obtain ⟨x, hx, hxb⟩ := mem_batchIds.mp hb
  obtain ⟨before, e, after, hsplit, he, hafter⟩ := exists_last ⟨x, hx, inBatch_iff.mpr hxb⟩
  refine ⟨before, e, after, hsplit, inBatch_iff.mp he, fun x hx hxb => ?_⟩
  simpa [inBatch_iff.mpr hxb] using hafter x hx

theorem released_of_horizon_le {events : List Event} {b later : BatchId} {j : Nat}
    (hb : b ∈ batchIds events) (hj : firstAt? later events = some j)
    (hle : horizon b events ≤ j) : Released events b later := by
  obtain ⟨before, e, after, rfl, he, hafter⟩ := exists_last_of_batch hb
  rw [horizon_of_split he hafter] at hle
  set p := forgetsAny (ids (members b (before ++ e :: after))) with hp
  have hlt : after.findIdx p < after.length := by
    obtain ⟨xs, y, ys, hsplit, hlen, -, -⟩ := firstAt?_eq_some_iff.mp hj
    have := congrArg List.length hsplit
    simp only [List.length_append, List.length_cons] at this
    omega
  have hsplit : before ++ e :: after = (before ++ e :: after.take (after.findIdx p)) ++
      after[after.findIdx p] :: after.drop (after.findIdx p + 1) := by simp
  refine ⟨_, _, _, hsplit, ?_, fun x hx => hafter x (List.mem_of_mem_drop hx),
    List.findIdx_getElem⟩
  rw [hsplit] at hj
  refine (length_le_firstAt?_iff hj).mp ?_
  simp only [List.length_append, List.length_cons, List.length_take]
  omega

theorem horizon_le_of_released {events : List Event} {b later : BatchId} {j : Nat}
    (hb : b ∈ batchIds events) (hj : firstAt? later events = some j)
    (h : Released events b later) : horizon b events ≤ j := by
  obtain ⟨before, e, after, rfl, he, hafter⟩ := exists_last_of_batch hb
  rw [horizon_of_split he hafter]
  obtain ⟨xs, c, ys, hsplit, hxs, hys, hc⟩ := h
  set p := forgetsAny (ids (members b (before ++ e :: after))) with hp
  have hce : c.batch? ≠ some b := by simp [batch?_of_forgetsAny hc]
  -- the condensation comes after the last event of the batch, so among the events left
  obtain ⟨zs, rfl, rfl⟩ : ∃ zs, xs = before ++ e :: zs ∧ after = zs ++ c :: ys := by
    rcases List.append_eq_append_iff.mp hsplit with ⟨zs, rfl, hzs⟩ | ⟨zs, rfl, hzs⟩
    · cases zs with
      | nil => exact absurd ((List.cons.inj hzs).1 ▸ he) hce
      | cons z zs => exact ⟨zs, by simp [(List.cons.inj hzs).1], (List.cons.inj hzs).2⟩
    · cases zs with
      | nil => exact absurd ((List.cons.inj hzs).1 ▸ he) hce
      | cons z zs => exact absurd he (hys e (by simp [(List.cons.inj hzs).2]))
  rw [hsplit] at hj
  have hlen := (length_le_firstAt?_iff hj).mpr hxs
  have hidx : (zs ++ c :: ys).findIdx p ≤ zs.length := by
    by_contra hlt
    have hnot := List.not_of_lt_findIdx (Nat.lt_of_not_le hlt)
    simp [hc] at hnot
  simp only [List.length_append, List.length_cons] at hlen
  omega

/-- The batches that depend on an earlier one are those that it precedes and that were not
released. -/
theorem mem_dependents {events : List Event} {b later : BatchId} :
    later ∈ dependents b events ↔ Precedes events b later ∧ ¬ Released events b later := by
  rw [dependents, List.mem_filter, mem_batchesAfter]
  refine and_congr_right fun hprec => ?_
  obtain ⟨j, hj⟩ := exists_firstAt? hprec.mem_right
  simp only [hj, decide_eq_true_eq]
  rw [← Nat.not_le]
  exact not_congr ⟨released_of_horizon_le hprec.mem_left hj,
    horizon_le_of_released hprec.mem_left hj⟩

/-! ## Appending an event outside of all batches -/

section

variable {events : List Event} {e : Event} {b later : BatchId}

theorem firstAt?_snoc (he : e.batch? ≠ some b) :
    firstAt? b (events ++ [e]) = firstAt? b events := by
  have hnone : firstAt? b [e] = none := by
    rw [firstAt?, List.findIdx?_eq_none_iff]
    intro x hx
    rw [List.mem_singleton.mp hx, ← Bool.not_eq_true, inBatch_iff]
    exact he
  rw [firstAt?_append, hnone, Option.map_none, Option.or_none]

theorem members_snoc (he : e.batch? ≠ some b) : members b (events ++ [e]) = members b events := by
  rw [members, List.filter_append, List.filter_cons_of_neg (by rwa [inBatch_iff]), List.filter_nil,
    List.append_nil, members]

theorem precedes_snoc_iff (he : e.batch? = none) :
    Precedes (events ++ [e]) b later ↔ Precedes events b later := by
  simp only [Precedes, firstAt?_snoc (e := e) (by simp [he])]

theorem reasons_snoc_iff (he : e.batch? = none) :
    Reasons (events ++ [e]) b ↔ Reasons events b := by
  simp only [Reasons, List.mem_append, List.mem_singleton, or_and_right, exists_or]
  refine or_iff_left ?_
  rintro ⟨x, rfl, hx, -⟩
  simp [he] at hx

theorem anchor?_snoc (he : e.batch? = none) : anchor? (events ++ [e]) = anchor? events := by
  refine Option.ext fun b => ?_
  simp only [anchor?_eq_some_iff, precedes_snoc_iff he, reasons_snoc_iff he]

theorem Released.snoc (he : e.batch? ≠ some b) (h : Released events b later) :
    Released (events ++ [e]) b later := by
  obtain ⟨before, c, after, rfl, hbefore, hafter, hc⟩ := h
  refine ⟨before, c, after ++ [e], by simp, hbefore, fun x hx => ?_, by rwa [members_snoc he]⟩
  rcases List.mem_append.mp hx with hx | hx
  · exact hafter x hx
  · rwa [List.mem_singleton.mp hx]

theorem Released.of_snoc (he : e.batch? ≠ some b) (hlater : later ∈ batchIds events)
    (h : Released (events ++ [e]) b later) : Released events b later := by
  obtain ⟨before, c, after, hsplit, hbefore, hafter, hc⟩ := h
  rw [members_snoc he] at hc
  obtain rfl | ⟨rest, x, rfl⟩ := List.eq_nil_or_concat after
  · obtain ⟨rfl, -⟩ := List.append_inj' hsplit rfl
    obtain ⟨x, hx, hxl⟩ := mem_batchIds.mp hlater
    exact absurd hxl (hbefore x hx)
  · have hsplit' : events ++ [e] = (before ++ c :: rest) ++ [x] := by simpa using hsplit
    obtain ⟨rfl, -⟩ := List.append_inj' hsplit' rfl
    exact ⟨before, c, rest, rfl, hbefore, fun y hy => hafter y (by simp [hy]), hc⟩

theorem mem_dependents_snoc_iff (he : e.batch? = none) :
    later ∈ dependents b (events ++ [e]) ↔ later ∈ dependents b events := by
  have hb : e.batch? ≠ some b := by simp [he]
  rw [mem_dependents, mem_dependents, precedes_snoc_iff he]
  exact and_congr_right fun hprec =>
    not_congr ⟨fun h => h.of_snoc hb hprec.mem_right, fun h => h.snoc hb⟩

/-! ## Appending an event of another batch -/

theorem Precedes.of_snoc (he : e.batch? ≠ some b) (hlater : later ∈ batchIds events)
    (h : Precedes (events ++ [e]) b later) : Precedes events b later := by
  have hb : b ∈ batchIds events := by
    rw [← firstAt?_isSome, ← firstAt?_snoc he, firstAt?_isSome]
    exact h.mem_left
  have hne : b ≠ later := fun hb => Precedes.irrefl (hb ▸ h)
  exact (Precedes.total hb hlater hne).resolve_right fun h' => h.asymm (h'.append _)

theorem anchor?_of_snoc (he : e.batch? ≠ some b) (h : anchor? (events ++ [e]) = some b) :
    anchor? events = some b := by
  obtain ⟨⟨x, hx, hxb, hreasons⟩, hlast⟩ := anchor?_eq_some_iff.mp h
  refine anchor?_eq_some_iff.mpr ⟨⟨x, ?_, hxb, hreasons⟩, ?_⟩
  · refine (List.mem_append.mp hx).resolve_right fun hx => he ?_
    rwa [← List.mem_singleton.mp hx]
  · rintro later hlater ⟨y, hy, hyl, hyreasons⟩
    exact hlast later (hlater.append _) ⟨y, List.mem_append_left _ hy, hyl, hyreasons⟩

theorem anchor?_of_append {more : List Event} (hmore : ∀ x ∈ more, x.batch? ≠ some b)
    (h : anchor? (events ++ more) = some b) : anchor? events = some b := by
  induction more using List.reverseRecOn with
  | nil => rwa [List.append_nil] at h
  | append_singleton more x ih =>
    rw [← List.append_assoc] at h
    exact ih (fun y hy => hmore y (by simp [hy])) (anchor?_of_snoc (hmore x (by simp)) h)

theorem mem_dependents_of_snoc (he : e.batch? ≠ some b) (hlater : later ∈ batchIds events)
    (h : later ∈ dependents b (events ++ [e])) : later ∈ dependents b events := by
  obtain ⟨hprec, hreleased⟩ := mem_dependents.mp h
  exact mem_dependents.mpr ⟨hprec.of_snoc he hlater, fun h => hreleased (h.snoc he)⟩

theorem mem_dependents_snoc (he : e.batch? ≠ some b) (h : later ∈ dependents b events) :
    later ∈ dependents b (events ++ [e]) := by
  obtain ⟨hprec, hreleased⟩ := mem_dependents.mp h
  exact mem_dependents.mpr ⟨hprec.append _, fun h => hreleased (h.of_snoc he hprec.mem_right)⟩

theorem mem_dependents_of_append {more : List Event} (hmore : ∀ x ∈ more, x.batch? ≠ some b)
    (hlater : later ∈ batchIds events) (h : later ∈ dependents b (events ++ more)) :
    later ∈ dependents b events := by
  induction more using List.reverseRecOn with
  | nil => rwa [List.append_nil] at h
  | append_singleton more x ih =>
    obtain ⟨y, hy, hyl⟩ := mem_batchIds.mp hlater
    rw [← List.append_assoc] at h
    exact ih (fun z hz => hmore z (by simp [hz])) (mem_dependents_of_snoc (hmore x (by simp))
      (mem_batchIds.mpr ⟨y, List.mem_append_left _ hy, hyl⟩) h)

theorem mem_dependents_append {more : List Event} (hmore : ∀ x ∈ more, x.batch? ≠ some b)
    (h : later ∈ dependents b events) : later ∈ dependents b (events ++ more) := by
  induction more using List.reverseRecOn with
  | nil => rwa [List.append_nil]
  | append_singleton more x ih =>
    rw [← List.append_assoc]
    exact mem_dependents_snoc (hmore x (by simp)) (ih fun y hy => hmore y (by simp [hy]))

theorem not_precedes_of_begun {more : List Event} (hb : b ∉ batchIds events)
    (hlater : later ∈ batchIds events) : ¬ Precedes (events ++ more) b later := by
  rintro ⟨i, j, hi, hj, hlt⟩
  have hle : events.length ≤ i := (length_le_firstAt?_iff hi).mpr fun x hx hxb =>
    hb (mem_batchIds.mpr ⟨x, hx, hxb⟩)
  obtain ⟨x, hx, hxl⟩ := mem_batchIds.mp hlater
  exact (length_le_firstAt?_iff hj).mp (by omega) x hx hxl

theorem anchor?_append {more : List Event} (hmore : ∀ x ∈ more, x.hasReasoning = false)
    (h : anchor? events = some b) : anchor? (events ++ more) = some b := by
  obtain ⟨⟨x, hx, hxb, hreasons⟩, hlast⟩ := anchor?_eq_some_iff.mp h
  refine anchor?_eq_some_iff.mpr ⟨⟨x, List.mem_append_left _ hx, hxb, hreasons⟩, ?_⟩
  rintro later hlater ⟨y, hy, hyl, hyreasons⟩
  have hy : y ∈ events := (List.mem_append.mp hy).resolve_right fun hy => by
    simp [hmore y hy] at hyreasons
  have hne : b ≠ later := fun hb => Precedes.irrefl (hb ▸ hlater)
  rcases Precedes.total (mem_batchIds.mpr ⟨x, hx, hxb⟩) (mem_batchIds.mpr ⟨y, hy, hyl⟩) hne
    with h | h
  · exact hlast later h ⟨y, hy, hyl, hyreasons⟩
  · exact hlater.asymm (h.append _)

end
end AgentMemory.Batching
