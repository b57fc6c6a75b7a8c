import AgentMemory.Proofs.Cancel.Drawn

/-!
# Requests

What can be done with tokens that are held, callbacks included. A request first changes the forest
where nothing is cancelled, then takes the course of its chores. What it cancels is what is drawn in
from the tokens whose cancel comes first, and of one token it says what the course says: its
callbacks, then the cancel that goes on to its children.
-/

namespace AgentMemory.Cancel

/-- What can be done with tokens. -/
inductive Request where
  | fresh
  | child (parent : Token)
  | clone (t : Token)
  | drop (t : Token)
  | cancel (t : Token)
  | onCancel (t : Token) (c : Callback)

namespace Request

def perform (f : Forest) : Request → Forest × List Firing
  | fresh => (f.fresh.1, [])
  | child p => ((f.child p).1, [])
  | clone t => (f.clone t, [])
  | drop t => (f.drop t, [])
  | cancel t => f.cancel t
  | onCancel t c => f.onCancel t c

/-- A token that has to be held. -/
def Needs : Request → Token → Prop
  | fresh, _ => False
  | child p, u => u = p
  | clone t, u | drop t, u | cancel t, u => u = t
  | onCancel t c, u => u = t ∨ c.mentions u = true

/-- What a request changes before anything is cancelled or called. -/
def prepare (f : Forest) : Request → Forest
  | fresh => f.fresh.1
  | child p => (f.child p).1
  | clone t => f.clone t
  | drop t => f.drop t
  | cancel _ => f
  | onCancel t c =>
    if f.isCancelled t then f else f.modify t fun n => { n with callbacks := n.callbacks ++ [c] }

/-- What is to be cancelled or called then. -/
def chores (f : Forest) : Request → List Chore
  | cancel t => [.cancel none t]
  | onCancel t c => if f.isCancelled t then [.call t c] else []
  | fresh | child _ | clone _ | drop _ => []

/-- The tokens whose cancel comes first. -/
def roots (f : Forest) : Request → List Token
  | cancel t => [t]
  | onCancel t c => if f.isCancelled t then c.cancels else []
  | fresh | child _ | clone _ | drop _ => []

def registers? (u : Token) : Request → Option Callback
  | onCancel t c => if t = u then some c else none
  | fresh | child _ | clone _ | drop _ | cancel _ => none

theorem run_prepare (f : Forest) (r : Request) :
    (r.prepare f).run ((r.chores f).map Chore.task) = r.perform f := by
  cases r with
  | cancel t => rfl
  | onCancel t c =>
    rw [prepare, chores, perform, Forest.onCancel]
    split
    · rfl
    · rw [List.map_nil, Forest.run]
  | fresh | child | clone | drop =>
    rw [chores, List.map_nil, Forest.run]
    rfl

end Request

namespace Forest

variable {f g : Forest} {t u v w p : Token} {n m : Node} {c : Callback} {r : Request}
  {story more : List Moment} {seen : Forest}

/-- Something holds the token. -/
def Live (f : Forest) (t : Token) : Prop := ∃ n, f.node? t = some n ∧ n.dropped = false

instance (f : Forest) (t : Token) : Decidable (f.Live t) :=
  decidable_of_iff ((f.node? t).any (!·.dropped) = true) (by simp [Live, Option.any_eq_true])

/-- A request on tokens that are held, with all that happens. -/
structure Performs (f : Forest) (r : Request) (story : List Moment) (g : Forest) : Prop where
  live : ∀ t, r.Needs t → f.Live t
  course : Course (r.prepare f) (r.chores f) story g

/-- **Every request comes to its end**, whatever its callbacks cancel. -/
theorem exists_performs (hlive : ∀ t, r.Needs t → f.Live t) :
    ∃ story, f.Performs r story (r.perform f).1 ∧
      story.filterMap Moment.firing? = (r.perform f).2 := by
  obtain ⟨story, g, h⟩ := exists_course (r.prepare f) (r.chores f)
  have hrun := h.run_eq
  rw [Request.run_prepare] at hrun
  rw [hrun]
  exact ⟨story, ⟨hlive, h⟩, rfl⟩

/-! ## The forest after what a request changes at once -/

/-- What becomes of the node of a token by a request: further callbacks if it is kept, and nothing
that matters to callbacks otherwise. -/
structure Prepared (n m : Node) (further : List Callback) : Prop where
  cancelled : m.cancelled = n.cancelled
  kept : m.dropped = false → n.dropped = false ∧ m.callbacks = n.callbacks ++ further

theorem Prepared.of_same (hcancelled : m.cancelled = n.cancelled) (hdropped : m.dropped = n.dropped)
    (hcallbacks : m.callbacks = n.callbacks) : Prepared n m [] :=
  ⟨hcancelled, fun h => ⟨hdropped ▸ h, by rw [hcallbacks, List.append_nil]⟩⟩

theorem node?_add_of_some (hn : f.node? u = some n) : (f.add m).1.node? u = some n := by
  rw [node?_add, if_neg (Nat.ne_of_lt (node?_lt hn)), hn]

theorem exists_prepared_modify (change : Node → Node) (hn : f.node? u = some n) (t : Token)
    (hchange : Prepared n (change n) []) :
    ∃ m, (f.modify t change).node? u = some m ∧ Prepared n m [] := by
  rw [node?_modify_eq_map, hn]
  by_cases ht : t = u
  · exact ⟨change n, by simp [ht], hchange⟩
  · exact ⟨n, by simp [ht], .of_same rfl rfl rfl⟩

theorem exists_prepared_of_quiet (hquiet : ∀ u, r.registers? u = none) (hn : f.node? u = some n) :
    ∃ m, (r.prepare f).node? u = some m ∧ Prepared n m [] := by
  cases r with
  | fresh => exact ⟨n, node?_add_of_some hn, .of_same rfl rfl rfl⟩
  | child p =>
    rw [Request.prepare, child]
    split
    · exact ⟨n, node?_add_of_some hn, .of_same rfl rfl rfl⟩
    · exact exists_prepared_modify (adoptNode _) (node?_add_of_some hn) p (.of_same rfl rfl rfl)
  | clone t => exact exists_prepared_modify _ hn t (.of_same rfl rfl rfl)
  | drop t =>
    obtain ⟨m, hm, hprepared⟩ :=
      exists_prepared_modify (fun n => { n with handles := n.handles - 1 }) hn t
        (.of_same rfl rfl rfl)
    rw [Request.prepare, drop]
    obtain hsame | ⟨k, hk, hdropped⟩ := node?_sweep_cases (f.modify t _) [] u
    · exact ⟨m, hsame.trans hm, hprepared⟩
    · cases Option.some.inj (hm.symm.trans hk)
      exact ⟨_, hdropped, hprepared.cancelled, fun hkept => by cases hkept⟩
  | cancel t => exact ⟨n, hn, .of_same rfl rfl rfl⟩
  | onCancel t c =>
    have hnone := hquiet t
    simp [Request.registers?] at hnone

/-- A token that is there goes on, with the callback that the request registers unless it is
cancelled already. -/
theorem exists_prepared (r : Request) (hn : f.node? u = some n) :
    ∃ m, (r.prepare f).node? u = some m ∧
      Prepared n m (if n.cancelled then [] else (r.registers? u).toList) := by
  cases r with
  | onCancel t c =>
    have hcancelled : f.isCancelled u = n.cancelled := isCancelled_eq hn
    rw [Request.prepare, Request.registers?]
    by_cases ht : f.isCancelled t = true
    · rw [if_pos ht]
      refine ⟨n, hn, ?_⟩
      by_cases htu : t = u
      · rw [← hcancelled, ← htu, if_pos ht]
        exact .of_same rfl rfl rfl
      · rw [if_neg htu, Option.toList_none, ite_self]
        exact .of_same rfl rfl rfl
    · rw [if_neg ht, node?_modify, hn]
      by_cases htu : t = u
      · rw [if_pos htu, ← hcancelled, ← htu, if_neg ht, if_pos rfl]
        exact ⟨_, rfl, rfl, fun h => ⟨h, rfl⟩⟩
      · rw [if_neg htu, if_neg htu, Option.toList_none, ite_self]
        exact ⟨n, rfl, .of_same rfl rfl rfl⟩
  | fresh | child | clone | drop | cancel =>
    rw [Request.registers?, Option.toList_none, ite_self]
    exact exists_prepared_of_quiet (fun _ => by rw [Request.registers?]) hn

theorem node?_eq_none_of_modify {change : Node → Node} (h : f.node? u = none) (t : Token) :
    (f.modify t change).node? u = none := by
  rw [node?_modify_eq_map, h]
  rfl

theorem callbacks_of_prepared (hlive : ∀ t, r.Needs t → f.Live t) (hn : f.node? u = none)
    (hm : (r.prepare f).node? u = some m) : m.callbacks = [] := by
  have hadd : ∀ k : Node, k.callbacks = [] → (f.add k).1.node? u = some m → m.callbacks = [] := by
    intro k hk hm
    rw [node?_add, hn] at hm
    split at hm
    · rwa [← Option.some.inj hm]
    · cases hm
  cases r with
  | fresh => exact hadd {} rfl hm
  | child p =>
    rw [Request.prepare, child] at hm
    split at hm
    · exact hadd _ rfl hm
    · -- the parent is held, and the token is not there before
      have hne : p ≠ u := by
        rintro rfl
        obtain ⟨k, hk, -⟩ := hlive p rfl
        cases hn.symm.trans hk
      rw [node?_modify_of_ne hne] at hm
      exact hadd {} rfl hm
  | clone t => cases (node?_eq_none_of_modify hn t).symm.trans hm
  | drop t =>
    have hnone : (f.modify t fun n => { n with handles := n.handles - 1 }).node? u = none :=
      node?_eq_none_of_modify hn t
    rw [Request.prepare, drop] at hm
    obtain hsame | ⟨k, hk, -⟩ := node?_sweep_cases (f.modify t _) [] u
    · cases (hsame.trans hnone).symm.trans hm
    · cases hnone.symm.trans hk
  | cancel t => cases hn.symm.trans hm
  | onCancel t c =>
    rw [Request.prepare] at hm
    split at hm
    · cases hn.symm.trans hm
    · cases (node?_eq_none_of_modify hn t).symm.trans hm

/-! ## What a request keeps -/

theorem Live.isDropped (h : f.Live t) : f.isDropped t = false := by
  obtain ⟨n, hn, hkept⟩ := h
  rw [isDropped_eq hn, hkept]

theorem Kept.add (h : Kept [] f) (hcallbacks : n.callbacks = []) (hkept : n.dropped = false) :
    Kept [] (f.add n).1 := by
  intro w hw
  obtain ⟨x, hx, -⟩ | ⟨u, m, c, hm, hc, hw⟩ := hw
  · cases hx
  · rw [node?_add] at hm
    split at hm
    · cases Option.some.inj hm
      rw [hcallbacks] at hc
      cases hc
    · have hbefore := h w (.inr ⟨u, m, c, hm, hc, hw⟩)
      rw [isDropped, holding?, node?_add]
      split
      · exact hkept
      · exact hbefore

theorem Kept.modify {change : Node → Node} (h : Kept [] f) (t : Token)
    (hdropped : ∀ n, (change n).dropped = n.dropped)
    (hcallbacks : ∀ n, ∀ c ∈ (change n).callbacks, c ∈ n.callbacks ∨
      ∀ w, c.mentions w = true → f.isDropped w = false) : Kept [] (f.modify t change) := by
  intro w hw
  have hsame : (f.modify t change).isDropped w = f.isDropped w := by
    rw [Forest.isDropped, holding?, node?_modify_eq_map, Forest.isDropped, holding?]
    cases f.node? w with
    | none => rfl
    | some n =>
      by_cases ht : t = w
      · simp [ht, hdropped]
      · simp [ht]
  rw [hsame]
  obtain ⟨x, hx, -⟩ | ⟨u, m, c, hm, hc, hw⟩ := hw
  · cases hx
  · rw [node?_modify_eq_map] at hm
    obtain ⟨n, hn, rfl⟩ := Option.map_eq_some_iff.mp hm
    split at hc
    · obtain hc | hc := hcallbacks n c hc
      · exact h w (.inr ⟨u, n, c, hn, hc, hw⟩)
      · exact hc w hw
    · exact h w (.inr ⟨u, n, c, hn, hc, hw⟩)

theorem Kept.prepare (h : Kept [] f) (hlive : ∀ t, r.Needs t → f.Live t) :
    Kept ((r.chores f).map Chore.task) (r.prepare f) := by
  cases r with
  | fresh => exact h.add rfl rfl
  | child p =>
    rw [Request.prepare, child]
    split
    · exact h.add rfl rfl
    · exact (h.add rfl rfl).modify p (fun _ => rfl) fun _ c hc => .inl hc
  | clone t => exact h.modify t (fun _ => rfl) fun _ c hc => .inl hc
  | drop t =>
    have hfewer : Kept [] (f.modify t fun n => { n with handles := n.handles - 1 }) :=
      h.modify t (fun _ => rfl) fun _ c hc => .inl hc
    exact hfewer.sweep
  | cancel t => exact h.cancel t
  | onCancel t c =>
    have hmentioned : ∀ w, c.mentions w = true → f.isDropped w = false := fun w hw =>
      (hlive w (.inr hw)).isDropped
    rw [Request.prepare, Request.chores]
    split
    · intro w hw
      obtain ⟨x, hx, hw⟩ | hw := hw
      · rw [List.mem_singleton.mp hx] at hw
        exact hmentioned w hw
      · exact h w (.inr hw)
    · refine h.modify t (fun _ => rfl) fun n r hr => ?_
      obtain hr | hr := List.mem_append.mp hr
      · exact .inl hr
      · rw [List.mem_singleton.mp hr]
        exact .inr hmentioned

theorem Request.sourced (f : Forest) (r : Request) : (r.prepare f).Sourced (r.chores f) := by
  intro x hx u hu
  cases r with
  | cancel t =>
    rw [List.mem_singleton.mp hx] at hu
    cases hu
  | onCancel t c =>
    rw [Request.chores] at hx
    rw [Request.prepare]
    split at hx
    · next ht =>
      rw [List.mem_singleton.mp hx] at hu
      cases hu
      rwa [if_pos ht]
    · cases hx
  | fresh | child | clone | drop => cases hx

namespace Performs

theorem kept (h : f.Performs r more g) (hf : Kept [] f) : Kept [] g :=
  h.course.kept (hf.prepare h.live)

theorem isCancelled_prepare (h : f.node? u = some n) (r : Request) :
    (r.prepare f).isCancelled u = f.isCancelled u := by
  obtain ⟨m, hm, hprepared⟩ := exists_prepared r h
  rw [isCancelled_eq hm, isCancelled_eq h, hprepared.cancelled]

theorem isCancelled (h : f.Performs r more g) (hu : f.isCancelled u = true) :
    g.isCancelled u = true := by
  obtain ⟨n, hn, -⟩ := isCancelled_iff.mp hu
  exact h.course.isCancelled ((isCancelled_prepare hn r).trans hu)

theorem newly_iff (h : f.node? u = some n) (r : Request) :
    Newly (r.prepare f) g u ↔ Newly f g u := by
  rw [Newly, isCancelled_prepare h, Newly]

theorem not_drawn_nil (h : Drawn f story [] u) : False := by
  induction h with
  | root ht => cases ht
  | child _ _ _ _ _ _ ih => exact ih
  | call _ _ _ _ _ ih => exact ih

theorem newly_iff_drawn (h : f.Performs r more g) (hf : Kept [] f) (hn : f.node? u = some n) :
    Newly f g u ↔ Drawn f more (r.roots f) u := by
  have hkept := hf.prepare h.live
  have hsourced := Request.sourced f r
  have hcourse := h.course
  -- with nothing to cancel or call no token is cancelled, and none is drawn in
  have hnone : r.chores f = [] → r.roots f = [] → (Newly f g u ↔ Drawn f more (r.roots f) u) := by
    intro hchores hroots
    rw [hroots, ← newly_iff hn r]
    refine iff_of_false (fun hnew => ?_) not_drawn_nil
    rw [hchores] at hcourse
    cases hcourse
    exact absurd hnew.2 (by simp [hnew.1])
  cases r with
  | cancel t =>
    refine hcourse.newly_iff_drawn hsourced hkept ?_ ?_
    · intro x hx
      rw [List.mem_singleton.mp hx]
      exact fun hopen => .root (List.mem_singleton_self t) hopen
    · intro w hw hopen
      obtain rfl := List.mem_singleton.mp hw
      cases hcourse with
      | close hm _ hrest => exact hrest.isCancelled ((isCancelled_close hm).mpr (.inl rfl))
      | skip hclosed _ => cases hopen.symm.trans hclosed
  | onCancel t c =>
    by_cases ht : f.isCancelled t = true
    · have hchores : (Request.onCancel t c).chores f = [.call t c] := if_pos ht
      have hroots : (Request.onCancel t c).roots f = c.cancels := if_pos ht
      have hsame : (Request.onCancel t c).prepare f = f := if_pos ht
      rw [hchores, hsame] at hcourse hsourced hkept
      rw [hroots]
      refine hcourse.newly_iff_drawn hsourced hkept ?_ ?_
      · intro x hx
        rw [List.mem_singleton.mp hx]
        exact fun w hw hopen => .root hw hopen
      · intro w hw hopen
        obtain ⟨m, hm, -⟩ := isOpen_iff.mp hopen
        have hcalled : Moment.called t c f ∈ more := by
          cases hcourse
          exact List.mem_cons_self
        exact hcourse.isCancelled_of_called_cancels hkept hcalled hw ⟨m, hm⟩
    · exact hnone (if_neg ht) (if_neg ht)
  | fresh | child | clone | drop => exact hnone (by rw [Request.chores]) (by rw [Request.roots])

/-- Where anything happens at all, the request has not changed the forest before. -/
theorem prepare_eq (h : f.Performs r more g) (hmore : more ≠ []) : r.prepare f = f := by
  have hchores : r.chores f ≠ [] := by
    intro hnil
    have hcourse := h.course
    rw [hnil] at hcourse
    cases hcourse
    exact hmore rfl
  cases r with
  | cancel t => rfl
  | onCancel t c =>
    by_cases ht : f.isCancelled t = true
    · exact if_pos ht
    · exact absurd (if_neg ht) hchores
  | fresh | child | clone | drop => exact absurd (by rw [Request.chores]) hchores

theorem eq_perform (h : f.Performs r more g) : r.perform f = (g, more.filterMap Moment.firing?) :=
  (Request.run_prepare f r).symm.trans h.course.run_eq

theorem due_request (f : Forest) (r : Request) (u : Token) :
    due u (r.chores f) = if f.isCancelled u then (r.registers? u).toList.map .called else [] := by
  cases r with
  | cancel t => simp [Request.chores, Request.registers?, due, Chore.mark?]
  | onCancel t c =>
    by_cases htu : t = u
    · subst htu
      by_cases ht : f.isCancelled t = true <;>
        simp [Request.chores, Request.registers?, due, Chore.mark?, ht]
    · by_cases ht : f.isCancelled t = true <;>
        simp [Request.chores, Request.registers?, due, Chore.mark?, ht, htu]
  | fresh | child | clone | drop => simp [Request.chores, Request.registers?, due]

theorem prepare_eq_of_newly (h : f.Performs r more g) (hnew : Newly (r.prepare f) g u) :
    r.prepare f = f ∧ f.isOpen u = true := by
  have hclosed : .closed u ∈ more := h.course.closed_mem_iff.mpr hnew
  have hsame := h.prepare_eq (List.ne_nil_of_mem hclosed)
  exact ⟨hsame, hsame ▸ h.course.isOpen_of_closed hclosed⟩

theorem marks_of_some (h : f.Performs r more g) (hn : f.node? u = some n) :
    marks u more =
      if n.cancelled then (r.registers? u).toList.map .called
      else if g.isCancelled u then .closed :: n.marks else [] := by
  have hcancelled : f.isCancelled u = n.cancelled := isCancelled_eq hn
  rw [h.course.marks_eq (Request.sourced f r) u, due_request, hcancelled]
  by_cases hnew : Newly (r.prepare f) g u
  · have hsame := (h.prepare_eq_of_newly hnew).1
    have hbefore : n.cancelled = false := by rw [← hcancelled, ← hsame, hnew.1]
    rw [if_pos hnew, hsame, hn, hbefore, if_neg Bool.false_ne_true, if_pos hnew.2]
    rfl
  · rw [if_neg hnew, List.append_nil]
    rw [newly_iff hn, Newly, hcancelled] at hnew
    cases hbefore : n.cancelled with
    | true => rfl
    | false => simp_all

theorem marks_of_none (h : f.Performs r more g) (hn : f.node? u = none) : marks u more = [] := by
  have hnew : ¬ Newly (r.prepare f) g u := by
    intro hnew
    obtain ⟨n, hn', -⟩ := isOpen_iff.mp (h.prepare_eq_of_newly hnew).2
    cases hn.symm.trans hn'
  rw [h.course.marks_eq (Request.sourced f r) u, due_request, if_neg hnew, Forest.isCancelled, hn]
  rfl

theorem eq_called_cons (h : f.Performs (.onCancel t c) more g) (ht : f.isCancelled t = true) :
    ∃ rest, more = .called t c f :: rest := by
  have hcourse := h.course
  rw [Request.prepare, if_pos ht, Request.chores, if_pos ht] at hcourse
  cases hcourse
  exact ⟨_, rfl⟩

theorem isCancelled_of_called (h : f.Performs r more g) (hcall : .called u c seen ∈ more) :
    seen.isCancelled u = true :=
  h.course.isCancelled_of_called (Request.sourced f r) hcall

theorem isDropped_of_handled (h : f.Performs r more g) (hv : f.Handled v)
    (hpassed : .passed p v seen ∈ more) : seen.isDropped v = false := by
  refine h.course.isDropped_of_handled ?_ hpassed
  rwa [h.prepare_eq (List.ne_nil_of_mem hpassed)]

theorem exists_node? (h : f.Performs r more g) (hn : f.node? u = some n) :
    ∃ m, g.node? u = some m := by
  obtain ⟨m, hm, -⟩ := exists_prepared r hn
  exact (h.course.preserves (P := fun f => ∃ m, f.node? u = some m)
    (fun f t hf => exists_node?_closeNode hf t) (fun f tasks hf => exists_node?_sweep hf tasks)
    ⟨m, hm⟩).1

end Performs

end Forest

end AgentMemory.Cancel
