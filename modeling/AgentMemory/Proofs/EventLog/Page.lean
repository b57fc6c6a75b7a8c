import AgentMemory.EventLog
import AgentMemory.Proofs.Event
import AgentMemory.Proofs.EventLog

/-!
# Paging through a growing log

A reader asks for one page after the other, each time after the last event it has been given, and
between two calls the log may grow. A page is the beginning of what is ahead of its cursor
(`page_of_mem`), and what is ahead of the next cursor is the rest of it (`ahead_of_next`). So the
pages put together are a beginning of what is ahead at the start, all of it as soon as there is no
cursor any more (`follow_visits`).
-/

namespace AgentMemory.EventLog

open Batching (ids)

variable {log grown next now : EventLog} {e : Event} {id : EventId} {start : Option EventId}
  {limit : Nat} {order : PageOrder}

/-! ## Growing -/

/-- A log that has come of another by appending. -/
inductive Grown (log : EventLog) : EventLog → Prop
  | refl : Grown log log
  | append {between grown : EventLog} {fresh : EventId} {e : Event} (h : Grown log between)
      (happend : between.append fresh e = .ok grown) : Grown log grown

theorem Grown.exists_more (h : Grown log grown) : ∃ more, grown.toList = log.toList ++ more := by
  induction h with
  | refl => exact ⟨[], (List.append_nil _).symm⟩
  | @append between grown fresh e h happend ih =>
    obtain ⟨more, hmore⟩ := ih
    exact ⟨more ++ [e.identified fresh], by rw [toList_append happend, hmore, List.append_assoc]⟩

theorem Grown.mem_ids (h : Grown log grown) (hid : id ∈ ids log.toList) :
    id ∈ ids grown.toList := by
  obtain ⟨more, hmore⟩ := h.exists_more
  rw [hmore, Batching.ids_append]
  exact List.mem_append_left _ hid

theorem exists_grown (log : EventLog) {more : List Event}
    (hdistinct : (ids (log.toList ++ more)).Nodup) (hids : ∀ e ∈ more, e.id.isEmpty = false) :
    ∃ grown, Grown log grown ∧ grown.toList = log.toList ++ more := by
  induction more using List.reverseRecOn with
  | nil => exact ⟨log, .refl, (List.append_nil _).symm⟩
  | append_singleton more e ih =>
    rw [← List.append_assoc, Batching.ids_append] at hdistinct
    obtain ⟨hold, -, hnew⟩ := List.nodup_append.mp hdistinct
    obtain ⟨grown, hgrown, hlist⟩ := ih hold fun x hx => hids x (by simp [hx])
    have hsame : e.identified e.id = e := Event.identified_of_id (hids e (by simp))
    have hfree : ∀ x ∈ grown.toList, x.id ≠ (e.identified e.id).id := by
      rw [hsame, hlist]
      exact fun x hx => hnew _ (Batching.id_mem_ids hx) _ (by simp [ids])
    obtain ⟨next, happend⟩ := grown.exists_append hfree
    refine ⟨next, hgrown.append happend, ?_⟩
    rw [toList_append happend, hsame, hlist, List.append_assoc]

/-! ## What is ahead -/

/-- The events of a log in a direction. -/
def inOrder (log : EventLog) : PageOrder → List Event
  | .forward => log.toList
  | .reverse => log.toList.reverse

/-- The events that come strictly after the one with an id, in a direction; all without an id. -/
def ahead (log : EventLog) (order : PageOrder) : Option EventId → List Event
  | none => log.inOrder order
  | some id => ((log.inOrder order).dropWhile (·.id ≠ id)).drop 1

theorem mem_inOrder : e ∈ log.inOrder order ↔ e ∈ log.toList := by
  cases order with
  | forward => exact Iff.rfl
  | reverse => exact List.mem_reverse

theorem distinct_inOrder (log : EventLog) (order : PageOrder) :
    (ids (log.inOrder order)).Nodup := by
  cases order with
  | forward => exact log.distinct_toList
  | reverse =>
    rw [inOrder, ids, List.map_reverse, List.nodup_reverse]
    exact log.distinct_toList

theorem ahead_of_split {before after : List Event} (h : log.inOrder order = before ++ e :: after) :
    log.ahead order (some e.id) = after := by
  have hbefore : ∀ x ∈ before, decide (x.id ≠ e.id) = true := by
    have hdistinct := log.distinct_inOrder order
    rw [h, Batching.ids_append] at hdistinct
    exact fun x hx => decide_eq_true
      ((List.nodup_append.mp hdistinct).2.2 _ (Batching.id_mem_ids hx) _ (by simp [ids]))
  rw [ahead, h, List.dropWhile_append_of_pos hbefore, List.dropWhile_cons_of_neg (by simp)]
  rfl

theorem ahead_suffix (log : EventLog) (order : PageOrder) (start : Option EventId) :
    log.ahead order start <:+ log.inOrder order := by
  cases start with
  | none => exact List.suffix_rfl
  | some id => exact (List.drop_suffix _ _).trans (List.dropWhile_suffix _)

theorem ahead_of_next {xs ys : List Event} (h : log.ahead order start = xs ++ ys)
    (hlast : xs.getLast?.map (·.id) = some id) : log.ahead order (some id) = ys := by
  obtain ⟨e, he, rfl⟩ := Option.map_eq_some_iff.mp hlast
  obtain ⟨front, rfl⟩ := List.getLast?_eq_some_iff.mp he
  obtain ⟨before, hbefore⟩ := log.ahead_suffix order start
  have hsplit : log.inOrder order = (before ++ front) ++ e :: ys := by
    rw [← hbefore, h]
    simp
  exact ahead_of_split hsplit

theorem mem_ids_of_ahead {xs ys : List Event} (h : log.ahead order start = xs ++ ys)
    (hlast : xs.getLast?.map (·.id) = some id) : id ∈ ids log.toList := by
  obtain ⟨e, he, rfl⟩ := Option.map_eq_some_iff.mp hlast
  refine Batching.id_mem_ids (mem_inOrder.mp ((log.ahead_suffix order start).subset ?_))
  rw [h]
  exact List.mem_append_left _ (List.mem_of_getLast? he)

theorem exists_split_of_mem_ids (hid : id ∈ ids log.toList) (order : PageOrder) :
    ∃ before e after, log.inOrder order = before ++ e :: after ∧ e.id = id := by
  obtain ⟨e, he, hid⟩ := Batching.mem_ids.mp hid
  obtain ⟨before, after, hsplit⟩ := List.append_of_mem (mem_inOrder.mpr he)
  exact ⟨before, e, after, hsplit, hid⟩

theorem Grown.ahead_forward (h : Grown log grown) (hstart : ∀ id ∈ start, id ∈ ids log.toList) :
    ∃ more, grown.ahead .forward start = log.ahead .forward start ++ more := by
  obtain ⟨more, hmore⟩ := h.exists_more
  refine ⟨more, ?_⟩
  cases start with
  | none => exact hmore
  | some id =>
    obtain ⟨before, e, after, hsplit, rfl⟩ := exists_split_of_mem_ids (hstart id rfl) .forward
    have hgrown : grown.inOrder .forward = before ++ e :: (after ++ more) := by
      show grown.toList = _
      rw [hmore, show log.toList = _ from hsplit]
      simp
    rw [ahead_of_split hsplit, ahead_of_split hgrown]

theorem Grown.ahead_reverse (h : Grown log grown) (hid : id ∈ ids log.toList) :
    grown.ahead .reverse (some id) = log.ahead .reverse (some id) := by
  obtain ⟨more, hmore⟩ := h.exists_more
  obtain ⟨before, e, after, hsplit, rfl⟩ := exists_split_of_mem_ids hid .reverse
  have hgrown : grown.inOrder .reverse = (more.reverse ++ before) ++ e :: after := by
    show grown.toList.reverse = _
    rw [hmore, List.reverse_append, show log.toList.reverse = _ from hsplit, List.append_assoc]
  rw [ahead_of_split hsplit, ahead_of_split hgrown]

/-! ## One page -/

theorem firstPage_next_eq_none_iff (hlimit : 0 < limit) {events : List Event} :
    (firstPage limit events).next = none ↔ (firstPage limit events).events = events := by
  show (if limit < events.length then _ else none) = none ↔ events.take limit = events
  split
  · next hlt =>
    have hne : events.take limit ≠ [] := by
      rw [ne_eq, List.take_eq_nil_iff, ← List.length_eq_zero_iff]
      omega
    have hpart : events.take limit ≠ events := fun hall => by
      have := congrArg List.length hall
      rw [List.length_take] at this
      omega
    simp [hne, hpart]
  · next hle => simp [List.take_of_length_le (Nat.le_of_not_lt hle)]

theorem length_lt_of_next {events : List Event} (h : (firstPage limit events).next = some id) :
    limit < events.length ∧ (firstPage limit events).events.getLast?.map (·.id) = some id := by
  change (if limit < events.length then _ else none) = some id at h
  split at h
  · next hlt => exact ⟨hlt, h⟩
  · cases h

theorem page_of_split {before after : List Event} (h : log.inOrder order = before ++ e :: after) :
    log.page (some e.id) limit order = .ok (firstPage limit after) := by
  cases order with
  | forward =>
    have hlist : log.toList = before ++ e :: after := h
    have hposition : log.position? e.id = some before.length :=
      position?_eq_some_iff.mpr (by simp [hlist])
    simp [page, hposition, beyond, hlist, pure, Except.pure]
  | reverse =>
    have hlist : log.toList = after.reverse ++ e :: before.reverse := by
      rw [← List.reverse_reverse log.toList, show log.toList.reverse = _ from h]
      simp
    have hposition : log.position? e.id = some after.length :=
      position?_eq_some_iff.mpr (by simp [hlist])
    simp [page, hposition, beyond, hlist, pure, Except.pure]

theorem page_of_mem (hstart : ∀ id ∈ start, id ∈ ids log.toList) :
    log.page start limit order = .ok (firstPage limit (log.ahead order start)) := by
  cases start with
  | none =>
    cases order with
    | forward => rfl
    | reverse =>
      show _ = Except.ok (firstPage limit log.toList.reverse)
      simp [page, beyond, ← length_toList, pure, Except.pure]
  | some id =>
    obtain ⟨before, e, after, hsplit, rfl⟩ := exists_split_of_mem_ids (hstart id rfl) order
    rw [page_of_split hsplit, ahead_of_split hsplit]

/-! ## Page after page -/

/-- The pages that are given when one is asked for on each of some logs, the first after a cursor
and every other after the cursor of the page before. The walk ends at a page without a cursor, or at
an error. -/
def follow (limit : Nat) (order : PageOrder) (cursor : Option EventId) :
    List EventLog → List (Except StoreError Page)
  | [] => []
  | log :: logs =>
    match log.page cursor limit order with
    | .error e => [.error e]
    | .ok p => .ok p :: match p.next with
      | none => []
      | some id => follow limit order (some id) logs

/-- A walk through a log that does not grow. -/
theorem walk_eq_follow (log : EventLog) (limit : Nat) (order : PageOrder)
    (cursor : Option EventId) (count : Nat) :
    log.walk limit order cursor count = follow limit order cursor (.replicate count log) := by
  induction count generalizing cursor with
  | zero => rfl
  | succ count ih =>
    rw [List.replicate_succ, walk, follow]
    cases log.page cursor limit order with
    | error e => rfl
    | ok p =>
      dsimp only
      cases p.next with
      | none => rfl
      | some id => exact congrArg (Except.ok p :: ·) (ih (some id))

def shown (pages : List Page) : List Event := pages.flatMap (·.events)

/-- The log that a walk goes through: as it is now when the oldest events come first, and as it was
at first when the latest do. -/
def scope : PageOrder → EventLog → EventLog → EventLog
  | .forward, _, now => now
  | .reverse, first, _ => first

theorem ahead_scope {xs ys : List Event} (hnext : Grown log next) (hnow : Grown log now)
    (hstart : ∀ id ∈ start, id ∈ ids log.toList) (h : log.ahead order start = xs ++ ys)
    (hlast : xs.getLast?.map (·.id) = some id) :
    (scope order log now).ahead order start =
      xs ++ (scope order next now).ahead order (some id) := by
  cases order with
  | forward =>
    obtain ⟨more, hmore⟩ := hnow.ahead_forward hstart
    rw [h, List.append_assoc] at hmore
    show now.ahead .forward start = xs ++ now.ahead .forward (some id)
    rw [ahead_of_next hmore hlast, hmore]
  | reverse =>
    show log.ahead .reverse start = xs ++ next.ahead .reverse (some id)
    rw [hnext.ahead_reverse (mem_ids_of_ahead h hlast), ahead_of_next h hlast, h]

/-- The number of pages that a number of events makes; there is always one. -/
def pageCount (limit n : Nat) : Nat := max 1 ((n + limit - 1) / limit)

theorem pageCount_le_one_iff (hlimit : 0 < limit) {n : Nat} :
    pageCount limit n ≤ 1 ↔ n ≤ limit := by
  have hdiv : (n + limit - 1) / limit < 2 ↔ n + limit - 1 < 2 * limit :=
    Nat.div_lt_iff_lt_mul hlimit
  rw [pageCount]
  omega

theorem pageCount_add (hlimit : 0 < limit) {n : Nat} (hpos : 0 < n) :
    pageCount limit (limit + n) = pageCount limit n + 1 := by
  have hdiv : (limit + n + limit - 1) / limit = (n + limit - 1) / limit + 1 := by
    rw [← Nat.add_div_right _ hlimit]
    congr 1
    omega
  have hone : 0 < (n + limit - 1) / limit := Nat.div_pos (by omega) hlimit
  rw [pageCount, pageCount, hdiv]
  omega

theorem pageCount_of_next (hlimit : 0 < limit) (hnext : Grown log next)
    (hstart : ∀ id ∈ start, id ∈ ids log.toList)
    (h : (firstPage limit (log.ahead .reverse start)).next = some id) :
    pageCount limit (log.ahead .reverse start).length =
      pageCount limit (next.ahead .reverse (some id)).length + 1 := by
  obtain ⟨hlt, hlast⟩ := length_lt_of_next h
  have hahead := ahead_scope hnext hnext hstart
    (List.take_append_drop limit _).symm hlast
  have hlength := congrArg List.length hahead
  change (log.ahead .reverse start).length =
    (_ ++ next.ahead .reverse (some id)).length at hlength
  rw [List.length_append, List.length_take, Nat.min_eq_left (Nat.le_of_lt hlt)] at hlength
  rw [hlength]
  exact pageCount_add hlimit (by omega)

/-- What the pages of a walk show that begins on one log and goes on on later ones. -/
structure Visits (limit : Nat) (order : PageOrder) (start : Option EventId) (log : EventLog)
    (later : List EventLog) (pages : List Page) : Prop where
  /-- The pages so far are a beginning of what is to be shown; they are all of it when the last of
  them has no cursor, and only then. -/
  visited : ∀ k p now, pages[k]? = some p → (log :: later)[k]? = some now →
    shown (pages.take (k + 1)) <+: (scope order log now).ahead order start ∧
      (p.next = none ↔ shown (pages.take (k + 1)) = (scope order log now).ahead order start)
  /-- A page that is followed by another is full. -/
  full : ∀ p ∈ pages.dropLast, p.next.isSome ∧ p.events.length = limit
  /-- There is a page for each log, or a last one without a cursor. -/
  ended : pages.length = later.length + 1 ∨
    pages.length ≤ later.length ∧ ∃ p, pages.getLast? = some p ∧ p.next = none
  /-- In reverse the number of pages is known from the start. -/
  count : order = .reverse →
    pages.length = min (later.length + 1) (pageCount limit (log.ahead .reverse start).length)
  /-- In reverse that number of calls leads to a page without a cursor. -/
  finished : order = .reverse →
    pageCount limit (log.ahead .reverse start).length ≤ later.length + 1 →
    ∃ p, pages.getLast? = some p ∧ p.next = none

namespace Visits

variable {later : List EventLog} {pages : List Page}

theorem ne_nil (h : Visits limit order start log later pages) : pages ≠ [] := by
  rintro rfl
  obtain hlength | ⟨-, p, hp, -⟩ := h.ended
  · cases hlength
  · cases hp

theorem visited_first (hlimit : 0 < limit) {p : Page} {k : Nat}
    (hp : (firstPage limit (log.ahead order start) :: pages)[k]? = some p)
    (hnow : (log :: later)[k]? = some now) (hk : k = 0) :
    shown ((firstPage limit (log.ahead order start) :: pages).take (k + 1)) <+:
        (scope order log now).ahead order start ∧
      (p.next = none ↔ shown ((firstPage limit (log.ahead order start) :: pages).take (k + 1)) =
        (scope order log now).ahead order start) := by
  subst hk
  cases hp
  cases hnow
  have hscope : scope order log log = log := by cases order <;> rfl
  have hshown : shown ((firstPage limit (log.ahead order start) :: pages).take (0 + 1)) =
      (firstPage limit (log.ahead order start)).events := List.append_nil _
  rw [hscope, hshown]
  exact ⟨List.take_prefix _ _, firstPage_next_eq_none_iff hlimit⟩

theorem single (hlimit : 0 < limit)
    (hend : later = [] ∨ (firstPage limit (log.ahead order start)).next = none) :
    Visits limit order start log later [firstPage limit (log.ahead order start)] where
  visited := by
    intro k p now hp hnow
    have hk : k = 0 := Nat.lt_one_iff.mp (List.getElem?_eq_some_iff.mp hp).1
    exact visited_first hlimit hp hnow hk
  full := by simp
  ended := by
    obtain rfl | hnone := hend
    · exact .inl rfl
    · cases later with
      | nil => exact .inl rfl
      | cons => exact .inr ⟨by simp, _, rfl, hnone⟩
  count := by
    rintro rfl
    have hpos : 1 ≤ pageCount limit (log.ahead .reverse start).length := Nat.le_max_left _ _
    rw [List.length_singleton]
    obtain rfl | hnone := hend
    · rw [List.length_nil]
      omega
    · have hall := (firstPage_next_eq_none_iff hlimit).mp hnone
      have hle : (log.ahead .reverse start).length ≤ limit := by
        rw [← hall]
        exact List.length_take_le _ _
      have hone := (pageCount_le_one_iff hlimit).mpr hle
      omega
  finished := by
    rintro rfl hle
    cases hnext : (firstPage limit (log.ahead .reverse start)).next with
    | none => exact ⟨_, rfl, hnext⟩
    | some id =>
      rw [hnext, or_iff_left (by simp)] at hend
      rw [hend] at hle
      have hfits := (pageCount_le_one_iff hlimit).mp hle
      exact absurd (length_lt_of_next hnext).1 (Nat.not_lt.mpr hfits)

theorem cons (h : Visits limit order (some id) next later pages) (hlimit : 0 < limit)
    (hnext : (firstPage limit (log.ahead order start)).next = some id)
    (hgrown : ∀ now ∈ next :: later, Grown log now) (hstart : ∀ id ∈ start, id ∈ ids log.toList) :
    Visits limit order start log (next :: later)
      (firstPage limit (log.ahead order start) :: pages) where
  visited := by
    obtain ⟨-, hlast⟩ := length_lt_of_next hnext
    intro k p now hp hnow
    cases k with
    | zero => exact visited_first hlimit hp hnow rfl
    | succ k =>
      rw [List.getElem?_cons_succ] at hp hnow
      have hahead := ahead_scope (hgrown next (by simp)) (hgrown now (List.mem_of_getElem? hnow))
        hstart (List.take_append_drop limit _).symm hlast
      obtain ⟨hbegins, hall⟩ := h.visited k p now hp hnow
      have hshown : shown ((firstPage limit (log.ahead order start) :: pages).take (k + 1 + 1)) =
          (log.ahead order start).take limit ++ shown (pages.take (k + 1)) := rfl
      rw [hshown, hahead, List.prefix_append_right_inj, List.append_cancel_left_eq]
      exact ⟨hbegins, hall⟩
  full := by
    obtain ⟨hlt, -⟩ := length_lt_of_next hnext
    intro p hp
    rw [List.dropLast_cons_of_ne_nil h.ne_nil] at hp
    obtain rfl | hp := List.mem_cons.mp hp
    · refine ⟨by simp [hnext], ?_⟩
      show ((log.ahead order start).take limit).length = limit
      rw [List.length_take]
      omega
    · exact h.full p hp
  ended := by
    obtain hlength | ⟨hle, p, hp, hnone⟩ := h.ended
    · exact .inl (congrArg (· + 1) hlength)
    · refine .inr ⟨Nat.succ_le_succ hle, p, ?_, hnone⟩
      rw [List.getLast?_cons, hp]
      rfl
  count := by
    rintro rfl
    rw [pageCount_of_next hlimit (hgrown next (by simp)) hstart hnext, List.length_cons,
      h.count rfl, List.length_cons]
    omega
  finished := by
    rintro rfl hle
    rw [pageCount_of_next hlimit (hgrown next (by simp)) hstart hnext, List.length_cons] at hle
    obtain ⟨p, hp, hnone⟩ := h.finished rfl (Nat.le_of_succ_le_succ hle)
    exact ⟨p, by rw [List.getLast?_cons, hp, Option.getD_some], hnone⟩

end Visits

/-- **Paging visits a log once.** Every call of a walk gives a page, on whatever the log has grown
to by then. Put together the pages are a beginning of the log as it is now, or in reverse of the
log as it was at first, after the event that the walk starts from; and they are all of that at the
moment when there is no cursor any more. In reverse that takes as many calls as what is ahead at
first makes pages. -/
theorem follow_visits (hlimit : 0 < limit) {later : List EventLog}
    (hgrown : (log :: later).Pairwise Grown) (hstart : ∀ id ∈ start, id ∈ ids log.toList) :
    ∃ pages, follow limit order start (log :: later) = pages.map .ok ∧
      Visits limit order start log later pages := by
  induction later generalizing log start with
  | nil =>
    refine ⟨[firstPage limit (log.ahead order start)], ?_, .single hlimit (.inl rfl)⟩
    rw [follow, page_of_mem hstart]
    dsimp only
    cases (firstPage limit (log.ahead order start)).next <;> rfl
  | cons next later ih =>
    obtain ⟨hfirst, hlater⟩ := List.pairwise_cons.mp hgrown
    rw [follow, page_of_mem hstart]
    dsimp only
    cases hnext : (firstPage limit (log.ahead order start)).next with
    | none => exact ⟨[_], rfl, .single hlimit (.inr hnext)⟩
    | some id =>
      have hid := (hfirst next (by simp)).mem_ids
        (mem_ids_of_ahead (List.take_append_drop limit _).symm (length_lt_of_next hnext).2)
      have hcursor : ∀ i ∈ some id, i ∈ ids next.toList := by simpa using hid
      obtain ⟨pages, hpages, hvisits⟩ := ih hlater hcursor
      refine ⟨_ :: pages, ?_, hvisits.cons hlimit hnext hfirst hstart⟩
      dsimp only
      rw [hpages]
      rfl

open Sample (said)

theorem follow_visits_growing :
    ∃ log grown : EventLog, log.toList = [said "u", said "v", said "w"] ∧ Grown log grown ∧
      grown.toList = [said "u", said "v", said "w", said "x"] ∧
      ∃ pages, follow 1 .forward (some ⟨"u"⟩) [log, grown, grown] = pages.map .ok ∧
        Visits 1 .forward (some ⟨"u"⟩) log [grown, grown] pages := by
  have hfirst : (ids (empty.toList ++ [said "u", said "v", said "w"])).Nodup := by decide
  obtain ⟨log, -, hlog⟩ := empty.exists_grown hfirst (by decide)
  have hlog : log.toList = [said "u", said "v", said "w"] := hlog
  have hlater : (ids (log.toList ++ [said "x"])).Nodup := by
    rw [hlog]
    decide
  obtain ⟨grown, hgrown, hlist⟩ := log.exists_grown hlater (by decide)
  refine ⟨log, grown, hlog, hgrown, by rw [hlist, hlog]; rfl, ?_⟩
  refine follow_visits Nat.one_pos ?_ ?_
  · simp [hgrown, Grown.refl]
  · rw [hlog]
    decide

end AgentMemory.EventLog
