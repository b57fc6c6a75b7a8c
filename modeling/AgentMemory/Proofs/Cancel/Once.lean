import AgentMemory.Proofs.Cancel.Requests

/-!
# Callbacks are called once

A history is a sequence of requests, each on tokens that are held at that moment. Together with it
goes a story, of all that happened. The main statement says what the story is to one token: nothing
as long as it is not cancelled, and each callback once when it is, or at once if it already was.

The cancel of a token goes on to the children after the callbacks. A callback that cancels one of
the children itself gets ahead of it, and the cancel that comes to that child later does nothing.
-/

namespace AgentMemory.Cancel

def registered (u : Token) (past : List Request) : List Callback := past.filterMap (·.registers? u)

def Mark.callback? : Mark → Option Callback
  | called c => some c
  | closed | passed _ => none

/-- The callbacks of a token that are called, in this order. -/
def calls (u : Token) (story : List Moment) : List Callback :=
  (marks u story).filterMap Mark.callback?

/-! ## Histories -/

/-- Requests follow each other from no tokens at all, with all that happens in a story. -/
inductive Unfolds : List Request → List Moment → Forest → Prop
  | nil : Unfolds [] [] {}
  | snoc {past : List Request} {r : Request} {story more : List Moment} {f g : Forest}
      (h : Unfolds past story f) (hr : f.Performs r more g) :
      Unfolds (past ++ [r]) (story ++ more) g

section

variable {f g : Forest} {u : Token} {n : Node} {c : Callback} {r : Request} {past : List Request}
  {story more : List Moment} {seen : Forest}

theorem registered_snoc (u : Token) (past : List Request) (r : Request) :
    registered u (past ++ [r]) = registered u past ++ (r.registers? u).toList := by
  rw [registered, List.filterMap_append, registered]
  cases hr : r.registers? u <;> simp [hr]

theorem calls_append (u : Token) (xs ys : List Moment) :
    calls u (xs ++ ys) = calls u xs ++ calls u ys := by
  rw [calls, marks_append, List.filterMap_append, calls, calls]

theorem filterMap_callback?_called (cs : List Callback) :
    (cs.map Mark.called).filterMap Mark.callback? = cs := by
  rw [List.filterMap_map]
  exact List.filterMap_some

theorem filterMap_callback?_passed (ts : List Token) :
    (ts.map Mark.passed).filterMap Mark.callback? = [] :=
  List.filterMap_eq_nil_iff.mpr fun x hx => by
    obtain ⟨t, -, rfl⟩ := List.mem_map.mp hx
    rfl

theorem Request.needs_of_registers? (h : r.registers? u = some c) : r.Needs u := by
  cases r with
  | onCancel t k =>
    rw [registers?] at h
    split at h
    · next htu => exact .inl htu.symm
    · cases h
  | fresh | child | clone | drop | cancel => cases h

theorem Forest.Performs.registers?_of_none (h : f.Performs r more g) (hn : f.node? u = none) :
    r.registers? u = none := by
  cases hc : r.registers? u with
  | none => rfl
  | some c =>
    obtain ⟨n, hn', -⟩ := h.live u (Request.needs_of_registers? hc)
    cases hn.symm.trans hn'

/-- The callbacks of a token, counted: as long as it is not cancelled, all that were registered are
with its node and none has been called; once it is, each has been called. -/
structure Tally (past : List Request) (story : List Moment) (f : Forest) (u : Token) : Prop where
  absent : f.node? u = none → registered u past = []
  waiting : ∀ n, f.node? u = some n → n.cancelled = false → n.dropped = false →
    n.callbacks = registered u past
  calls_eq : calls u story = if f.isCancelled u then registered u past else []

namespace Tally

theorem absent_step (h : Tally past story f u) (hr : f.Performs r more g) (hn : g.node? u = none) :
    registered u (past ++ [r]) = [] := by
  have hbefore : f.node? u = none := by
    cases hnode : f.node? u with
    | none => rfl
    | some n =>
      obtain ⟨m, hm⟩ := hr.exists_node? hnode
      cases hn.symm.trans hm
  rw [registered_snoc, h.absent hbefore, hr.registers?_of_none hbefore]
  rfl

theorem waiting_step (h : Tally past story f u) (hr : f.Performs r more g) (hn : g.node? u = some n)
    (hcancelled : n.cancelled = false) (hdropped : n.dropped = false) :
    n.callbacks = registered u (past ++ [r]) := by
  -- it is not cancelled in the end, so the course has left its node alone
  have hprepared : (r.prepare f).node? u = some n :=
    (hr.course.node?_of_isOpen (Forest.isOpen_iff.mpr ⟨n, hn, hcancelled, hdropped⟩)).symm.trans hn
  rw [registered_snoc]
  cases hnode : f.node? u with
  | none =>
    rw [Forest.callbacks_of_prepared hr.live hnode hprepared, h.absent hnode,
      hr.registers?_of_none hnode]
    rfl
  | some k =>
    obtain ⟨m, hm, hfurther⟩ := Forest.exists_prepared r hnode
    cases Option.some.inj (hprepared.symm.trans hm)
    have hbefore : k.cancelled = false := hfurther.cancelled.symm.trans hcancelled
    obtain ⟨hkept, hcallbacks⟩ := hfurther.kept hdropped
    rw [hcallbacks, h.waiting k hnode hbefore hkept, if_neg (by simp [hbefore])]

theorem of_newly (h : Tally past story f u) (hr : f.Performs r more g) (hn : f.node? u = some n)
    (hnew : f.Newly g u) : n.callbacks = registered u past ∧ r.registers? u = none := by
  obtain ⟨hsame, hopen⟩ := hr.prepare_eq_of_newly ((Forest.Performs.newly_iff hn r).mpr hnew)
  obtain ⟨k, hk, hcancelled, hkept⟩ := Forest.isOpen_iff.mp hopen
  cases Option.some.inj (hn.symm.trans hk)
  refine ⟨h.waiting n hn hcancelled hkept, ?_⟩
  -- the forest is the one before, so no callback can have come to its node
  obtain ⟨m, hm, hprepared⟩ := Forest.exists_prepared r hn
  rw [hsame] at hm
  cases Option.some.inj (hn.symm.trans hm)
  have hcallbacks := (hprepared.kept hkept).2
  rw [if_neg (by simp [hcancelled]), List.self_eq_append_right] at hcallbacks
  exact Option.toList_eq_nil_iff.mp hcallbacks

theorem marks_eq (h : Tally past story f u) (hr : f.Performs r more g) (hn : f.node? u = some n) :
    marks u more =
      if n.cancelled then (r.registers? u).toList.map .called
      else if g.isCancelled u then
        .closed :: ((registered u past).map .called ++ n.children.map .passed)
      else [] := by
  rw [hr.marks_of_some hn]
  cases hbefore : n.cancelled with
  | true => rfl
  | false =>
    cases hafter : g.isCancelled u with
    | false => rfl
    | true =>
      have hnew : f.Newly g u := ⟨(Forest.isCancelled_eq hn).trans hbefore, hafter⟩
      rw [Node.marks, (h.of_newly hr hn hnew).1]

theorem calls_step (h : Tally past story f u) (hr : f.Performs r more g) :
    calls u (story ++ more) =
      if g.isCancelled u then registered u (past ++ [r]) else [] := by
  rw [calls_append, h.calls_eq, calls, registered_snoc]
  cases hn : f.node? u with
  | none =>
    have hbefore : f.isCancelled u = false := by rw [Forest.isCancelled, hn]; rfl
    rw [hr.marks_of_none hn, hbefore, h.absent hn, hr.registers?_of_none hn]
    simp
  | some n =>
    have hcancelled : f.isCancelled u = n.cancelled := Forest.isCancelled_eq hn
    rw [h.marks_eq hr hn, hcancelled]
    cases hbefore : n.cancelled with
    | true =>
      have hafter : g.isCancelled u = true := hr.isCancelled (hcancelled.trans hbefore)
      rw [if_pos rfl, if_pos rfl, if_pos hafter, filterMap_callback?_called]
    | false =>
      cases hafter : g.isCancelled u with
      | false => rfl
      | true =>
        have hnone := (h.of_newly hr hn ⟨hcancelled.trans hbefore, hafter⟩).2
        have hmarks : (Mark.closed :: ((registered u past).map Mark.called ++
            n.children.map Mark.passed)).filterMap Mark.callback? = registered u past := by
          rw [List.filterMap_cons_none rfl, List.filterMap_append, filterMap_callback?_called,
            filterMap_callback?_passed, List.append_nil]
        rw [hnone, Option.toList_none, List.append_nil]
        exact hmarks

theorem snoc (h : Tally past story f u) (hr : f.Performs r more g) :
    Tally (past ++ [r]) (story ++ more) g u :=
  ⟨h.absent_step hr, fun _ hn => h.waiting_step hr hn, h.calls_step hr⟩

end Tally

namespace Unfolds

theorem tally (h : Unfolds past story f) (u : Token) : Tally past story f u := by
  induction h with
  | nil => exact ⟨fun _ => rfl, fun n hn => absurd hn nofun, rfl⟩
  | snoc h hr ih => exact ih.snoc hr

theorem kept (h : Unfolds past story f) : f.Kept [] := by
  induction h with
  | nil =>
    rintro w (⟨x, hx, -⟩ | ⟨u, n, c, hn, -⟩)
    · cases hx
    · cases hn
  | snoc h hr ih => exact hr.kept ih

theorem isCancelled_of_called (h : Unfolds past story f) (hcall : .called u c seen ∈ story) :
    seen.isCancelled u = true := by
  induction h with
  | nil => cases hcall
  | snoc h hr ih =>
    obtain hcall | hcall := List.mem_append.mp hcall
    · exact ih hcall
    · exact hr.isCancelled_of_called hcall

theorem exists_snoc (h : Unfolds past story f) (hlive : ∀ t, r.Needs t → f.Live t) :
    ∃ more, Unfolds (past ++ [r]) (story ++ more) (r.perform f).1 := by
  obtain ⟨more, hr, -⟩ := Forest.exists_performs hlive
  exact ⟨more, h.snoc hr⟩

end Unfolds

/-- What a request comes to after others. -/
structure Outcome (past : List Request) (f : Forest) (r : Request) (more : List Moment)
    (g : Forest) : Prop where
  /-- It returns this forest, and reports what is called. -/
  perform_eq : r.perform f = (g, more.filterMap Moment.firing?)
  /-- What it cancels is what is drawn in. -/
  newly_iff : ∀ u n, f.node? u = some n → (f.Newly g u ↔ f.Drawn more (r.roots f) u)
  /-- A token with a handle is held when the cancel comes to it. -/
  held : ∀ p v seen, f.Handled v → .passed p v seen ∈ more → seen.isDropped v = false
  /-- No token becomes uncancelled. -/
  cancelled : ∀ u, f.isCancelled u = true → g.isCancelled u = true
  /-- A token that is cancelled has its callbacks called in the order in which they were registered,
  and passes the cancel on to its children then; for a token that was cancelled before only the
  callback is called that is registered now, and for any other token none. -/
  marks_eq : ∀ u n, f.node? u = some n → marks u more =
    if n.cancelled then (r.registers? u).toList.map .called
    else if g.isCancelled u then
      .closed :: ((registered u past).map .called ++ n.children.map .passed)
    else []
  /-- A callback registered with a cancelled token is called at once. -/
  atOnce : ∀ u c, r = .onCancel u c → f.isCancelled u = true → ∃ rest, more = .called u c f :: rest

theorem Unfolds.outcome (h : Unfolds past story f) (hr : f.Performs r more g) :
    Outcome past f r more g where
  perform_eq := hr.eq_perform
  newly_iff _ _ hn := hr.newly_iff_drawn h.kept hn
  held _ _ _ hv hpassed := hr.isDropped_of_handled hv hpassed
  cancelled _ hu := hr.isCancelled hu
  marks_eq u _ hn := (h.tally u).marks_eq hr hn
  atOnce _ _ hc hu := by
    subst hc
    exact hr.eq_called_cons hu

/-- **Callbacks are called once.** After any history every request returns, whatever callbacks
cancel on the way, and cancels just what is drawn in. Over the history each callback of a cancelled
token has been called once, in the order in which they were registered and when the token was
cancelled already; for no other token has any been called. -/
theorem callbacks_called_once (h : Unfolds past story f) :
    (∀ r, (∀ t, r.Needs t → f.Live t) → ∃ more g, f.Performs r more g) ∧
    (∀ r more g, f.Performs r more g → Outcome past f r more g) ∧
    (∀ u, calls u story = if f.isCancelled u then registered u past else []) ∧
    ∀ u c seen, .called u c seen ∈ story → seen.isCancelled u = true := by
  refine ⟨fun r hlive => ?_, fun r more g hr => h.outcome hr, fun u => (h.tally u).calls_eq,
    fun u c seen hcall => h.isCancelled_of_called hcall⟩
  obtain ⟨more, hr, -⟩ := Forest.exists_performs hlive
  exact ⟨more, _, hr⟩

end

namespace Sample

/-- The callback of a token cancels the child, and the callback of the child the token. -/
def first : Callback := { label := "first", cancels := [⟨1⟩] }
def second : Callback := { label := "second", watches := some [("child", ⟨1⟩)], cancels := [⟨0⟩] }

def late : Callback := { label := "late" }

end Sample

open Cancel.Sample in
/-- The child is cancelled first. A callback registered later is called too. -/
theorem callbacks_called_once_mutual :
    ∃ story f,
      Unfolds [.fresh, .child ⟨0⟩, .onCancel ⟨0⟩ first, .onCancel ⟨1⟩ second, .cancel ⟨1⟩,
        .onCancel ⟨0⟩ late] story f ∧
      calls ⟨0⟩ story = [first, late] ∧ calls ⟨1⟩ story = [second] := by
  have hnew : ∀ u, Request.fresh.Needs u → ({} : Forest).Live u := fun _ hu => hu.elim
  obtain ⟨_, h⟩ := Unfolds.nil.exists_snoc hnew
  obtain ⟨_, h⟩ := h.exists_snoc (r := .child ⟨0⟩) (by rintro u rfl; decide +kernel)
  have hfirst : ∀ u, first.mentions u = true → u = ⟨1⟩ := by simp [first, Callback.mentions]
  obtain ⟨_, h⟩ := h.exists_snoc (r := .onCancel ⟨0⟩ first) (by
    rintro u (rfl | hu)
    · decide +kernel
    · rw [hfirst u hu]
      decide +kernel)
  have hsecond : ∀ u, second.mentions u = true → u = ⟨0⟩ ∨ ⟨1⟩ = u := by
    simp [second, Callback.mentions]
  obtain ⟨_, h⟩ := h.exists_snoc (r := .onCancel ⟨1⟩ second) (by
    rintro u (rfl | hu)
    · decide +kernel
    · obtain rfl | rfl := hsecond u hu <;> decide +kernel)
  obtain ⟨_, h⟩ := h.exists_snoc (r := .cancel ⟨1⟩) (by rintro u rfl; decide +kernel)
  obtain ⟨story, h⟩ := h.exists_snoc (r := .onCancel ⟨0⟩ late) (by
    rintro u (rfl | hu)
    · decide +kernel
    · cases hu)
  refine ⟨_, _, h, ?_, ?_⟩
  · rw [(callbacks_called_once h).2.2.1, if_pos (by decide +kernel)]
    rfl
  · rw [(callbacks_called_once h).2.2.1, if_pos (by decide +kernel)]
    rfl

end AgentMemory.Cancel
