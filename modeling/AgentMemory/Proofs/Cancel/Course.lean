import AgentMemory.Proofs.Cancel.Closure

/-!
# The course of a cancel

What happens one moment after the other while tasks are done: a token is cancelled, a callback of a
token is called, a cancel is passed on from a token to a child. A course tells of each moment which
token it is about, and what the forest is at that moment. Every cancel has one, so it comes to its
end whatever its callbacks cancel; and no token is cancelled, called or passed on to in another way.
-/

namespace AgentMemory.Cancel

/-- A task, with the token that it is left from: the one that passes a cancel on, or the one that a
callback was registered with. -/
inductive Chore where
  | cancel (via : Option Token) (t : Token)
  | call (owner : Token) (c : Callback)
  | release (c : Callback)

namespace Chore

def task : Chore → Task
  | cancel _ t => .cancel t
  | call _ c => .call c
  | release c => .release c

theorem eq_cancel {x : Chore} {t : Token} (h : x.task = .cancel t) : ∃ via, x = .cancel via t := by
  cases x with
  | cancel via u =>
    cases h
    exact ⟨via, rfl⟩
  | call | release => cases h

theorem eq_call {x : Chore} {c : Callback} (h : x.task = .call c) : ∃ owner, x = .call owner c := by
  cases x with
  | call owner d =>
    cases h
    exact ⟨owner, rfl⟩
  | cancel | release => cases h

theorem eq_release {x : Chore} {c : Callback} (h : x.task = .release c) : x = .release c := by
  cases x with
  | release d =>
    cases h
    rfl
  | cancel | call => cases h

def source? : Chore → Option Token
  | cancel via _ => via
  | call owner _ => some owner
  | release _ => none

end Chore

def Callback.chores (c : Callback) : List Chore := c.cancels.map (.cancel none) ++ [.release c]

theorem Callback.map_task_chores (c : Callback) : c.chores.map Chore.task = c.tasks := by
  rw [chores, tasks, List.map_append, List.map_map]
  rfl

/-- What the node of a token leaves to do once the token is cancelled. -/
def Node.chores (t : Token) (n : Node) : List Chore :=
  n.callbacks.map (.call t) ++ n.children.map (.cancel (some t))

/-- What can happen: a token is cancelled, a callback of a token is called, a cancel comes from a
token to a child. -/
inductive Moment where
  | closed (t : Token)
  | called (owner : Token) (c : Callback) (seen : Forest)
  | passed (parent child : Token) (seen : Forest)

def Moment.firing? : Moment → Option Firing
  | called _ c seen => some (seen.fire c)
  | closed _ | passed .. => none

/-- The forest at a moment, unless that is only about a token. -/
def Moment.seen? : Moment → Option Forest
  | called _ _ seen | passed _ _ seen => some seen
  | closed _ => none

namespace Forest

variable {f g : Forest} {t u v w : Token} {via : Option Token} {n m : Node} {chores : List Chore}
  {story : List Moment}

/-- A cancel comes to a token, perhaps from another one. -/
def arrival (f : Forest) (via : Option Token) (t : Token) : List Moment :=
  via.toList.map (.passed · t f)

/-- Chores are done one after the other, and what happens is a story. -/
inductive Course : Forest → List Chore → List Moment → Forest → Prop
  | done (f : Forest) : Course f [] [] f
  | close {f g : Forest} {via : Option Token} {t : Token} {n : Node} {chores : List Chore}
      {story : List Moment} (hn : f.node? t = some n) (hopen : f.isOpen t = true)
      (h : Course (f.modify t closeNode) (n.chores t ++ chores) story g) :
      Course f (.cancel via t :: chores) (f.arrival via t ++ .closed t :: story) g
  | skip {f g : Forest} {via : Option Token} {t : Token} {chores : List Chore}
      {story : List Moment} (hopen : f.isOpen t = false) (h : Course f chores story g) :
      Course f (.cancel via t :: chores) (f.arrival via t ++ story) g
  | call {f g : Forest} {owner : Token} {c : Callback} {chores : List Chore}
      {story : List Moment} (h : Course f (c.chores ++ chores) story g) :
      Course f (.call owner c :: chores) (.called owner c f :: story) g
  | release {f g : Forest} {c : Callback} {chores : List Chore} {story : List Moment}
      (h : Course (f.sweep (chores.map Chore.task)) chores story g) :
      Course f (.release c :: chores) story g

/-! ## Courses and runs -/

theorem close_eq_chores (hn : f.node? t = some n) :
    f.close t = (f.modify t closeNode, (n.chores t).map Chore.task) := by
  rw [close, hn, Node.chores, List.map_append, List.map_map, List.map_map]
  rfl

theorem filterMap_firing?_arrival (f : Forest) (via : Option Token) (t : Token) :
    (f.arrival via t).filterMap Moment.firing? = [] := by
  cases via <;> rfl

theorem Course.run_eq (h : Course f chores story g) :
    f.run (chores.map Chore.task) = (g, story.filterMap Moment.firing?) := by
  induction h with
  | done f => rw [List.map_nil, run]; rfl
  | @close f g via t n chores story hn hopen h ih =>
    rw [List.map_cons, Chore.task, run, if_pos hopen, close_eq_chores hn, ← List.map_append, ih,
      List.filterMap_append, filterMap_firing?_arrival]
    rfl
  | @skip f g via t chores story hopen h ih =>
    rw [List.map_cons, Chore.task, run, if_neg (by simp [hopen]), ih, List.filterMap_append,
      filterMap_firing?_arrival, List.nil_append]
  | @call f g owner c chores story h ih =>
    rw [List.map_append, Callback.map_task_chores] at ih
    rw [List.map_cons, Chore.task, run, ih]
    rfl
  | release h ih => rw [List.map_cons, Chore.task, run, ih]

/-- **All chores come to their end.** -/
theorem exists_course (f : Forest) (chores : List Chore) : ∃ story g, Course f chores story g := by
  generalize htasks : chores.map Chore.task = tasks
  fun_induction run f tasks generalizing chores with
  | case1 f =>
    obtain rfl := List.map_eq_nil_iff.mp htasks
    exact ⟨[], f, .done f⟩
  | case2 f t tasks hopen ih =>
    obtain ⟨chore, rest, rfl, hchore, rfl⟩ := List.map_eq_cons_iff.mp htasks
    obtain ⟨via, rfl⟩ := Chore.eq_cancel hchore
    obtain ⟨n, hn, -⟩ := isOpen_iff.mp hopen
    rw [close_eq_chores hn] at ih
    obtain ⟨story, g, h⟩ := ih (n.chores t ++ rest) List.map_append
    exact ⟨_, g, .close hn hopen h⟩
  | case3 f t tasks hopen ih =>
    obtain ⟨chore, rest, rfl, hchore, rfl⟩ := List.map_eq_cons_iff.mp htasks
    obtain ⟨via, rfl⟩ := Chore.eq_cancel hchore
    obtain ⟨story, g, h⟩ := ih rest rfl
    exact ⟨_, g, .skip (by simpa using hopen) h⟩
  | case4 f c tasks g firings hrun ih =>
    obtain ⟨chore, rest, rfl, hchore, rfl⟩ := List.map_eq_cons_iff.mp htasks
    obtain ⟨owner, rfl⟩ := Chore.eq_call hchore
    obtain ⟨story, g, h⟩ := ih (c.chores ++ rest)
      (by rw [List.map_append, Callback.map_task_chores])
    exact ⟨_, g, .call h⟩
  | case5 f c tasks ih =>
    obtain ⟨chore, rest, rfl, hchore, rfl⟩ := List.map_eq_cons_iff.mp htasks
    obtain rfl := Chore.eq_release hchore
    obtain ⟨story, g, h⟩ := ih rest rfl
    exact ⟨story, g, .release h⟩

/-! ## Single tokens -/

theorem isCancelled_eq (h : f.node? t = some n) : f.isCancelled t = n.cancelled := by
  rw [isCancelled, h, Option.any_some]

theorem isCancelled_of_isOpen (h : f.isOpen t = true) : f.isCancelled t = false := by
  obtain ⟨n, hn, hfalse, -⟩ := isOpen_iff.mp h
  rw [isCancelled_eq hn, hfalse]

/-! ## What is let go on the way -/

theorem node?_dropUnheld_eq (f : Forest) (tasks : List Task) (u : Token) :
    (f.dropUnheld tasks).node? u = (f.node? u).map fun n =>
      if f.isHeld tasks u n then n else { n.cleared with dropped := true } := by
  simp [node?, dropUnheld, List.getElem?_mapIdx]

/-- Whatever a round of dropping keeps is kept by a sweep. -/
theorem sweep_induct {P : Forest → Prop} {tasks : List Task}
    (hround : ∀ f, P f → P (f.dropUnheld tasks)) (hf : P f) : P (f.sweep tasks) := by
  unfold sweep
  generalize f.nodes.length = rounds
  induction rounds with
  | zero => exact hf
  | succ k ih => exact hround _ ih

theorem node?_sweep_cases (f : Forest) (tasks : List Task) (u : Token) :
    (f.sweep tasks).node? u = f.node? u ∨
      ∃ n, f.node? u = some n ∧
        (f.sweep tasks).node? u = some { n.cleared with dropped := true } := by
  refine sweep_induct (P := fun g => g.node? u = f.node? u ∨
    ∃ n, f.node? u = some n ∧ g.node? u = some { n.cleared with dropped := true }) ?_ (.inl rfl)
  intro g hg
  rw [node?_dropUnheld_eq]
  obtain hsame | ⟨n, hn, hdropped⟩ := hg
  · rw [hsame]
    cases hn : f.node? u with
    | none => exact .inl rfl
    | some n =>
      by_cases hheld : g.isHeld tasks u n
      · exact .inl (by simp [hheld])
      · exact .inr ⟨n, rfl, by simp [hheld]⟩
  · refine .inr ⟨n, hn, ?_⟩
    rw [hdropped]
    simp [Node.cleared]

@[simp] theorem isCancelled_sweep (f : Forest) (tasks : List Task) (u : Token) :
    (f.sweep tasks).isCancelled u = f.isCancelled u := by
  obtain hsame | ⟨n, hn, hdropped⟩ := f.node?_sweep_cases tasks u
  · rw [isCancelled, hsame, isCancelled]
  · rw [isCancelled_eq hdropped, isCancelled_eq hn]
    rfl

theorem node?_sweep_of_kept {tasks : List Task} (h : (f.sweep tasks).isDropped u = false) :
    (f.sweep tasks).node? u = f.node? u := by
  refine (f.node?_sweep_cases tasks u).resolve_right ?_
  rintro ⟨n, -, hdropped⟩
  rw [isDropped_eq hdropped] at h
  cases h

theorem isOpen_congr (h : f.node? u = g.node? u) : f.isOpen u = g.isOpen u := by
  rw [isOpen, h, isOpen]

theorem isOpen_of_isOpen_closeNode (h : (f.modify t closeNode).isOpen u = true) :
    t ≠ u ∧ f.isOpen u = true := by
  have hne : t ≠ u := by
    rintro rfl
    obtain ⟨n, hn, hfalse, -⟩ := isOpen_iff.mp h
    rw [node?_modify_self] at hn
    obtain ⟨k, -, rfl⟩ := Option.map_eq_some_iff.mp hn
    cases hfalse
  exact ⟨hne, isOpen_congr (node?_modify_of_ne hne) ▸ h⟩

theorem node?_sweep_of_isOpen {tasks : List Task} (h : (f.sweep tasks).isOpen u = true) :
    (f.sweep tasks).node? u = f.node? u := by
  obtain ⟨n, hn, -, hkept⟩ := isOpen_iff.mp h
  exact node?_sweep_of_kept (by rw [isDropped_eq hn, hkept])

/-! ## What stays as it is -/

/-- What cancelling a token and what a sweep keeps holds at every moment, and in the end. -/
theorem Course.preserves {P : Forest → Prop} (hclose : ∀ f t, P f → P (f.modify t closeNode))
    (hsweep : ∀ f tasks, P f → P (f.sweep tasks)) (h : Course f chores story g) (hf : P f) :
    P g ∧ ∀ x ∈ story, ∀ seen, x.seen? = some seen → P seen := by
  have harrival : ∀ (f : Forest) via t, P f → ∀ x ∈ f.arrival via t, ∀ seen,
      x.seen? = some seen → P seen := by
    intro f via t hf x hx seen hseen
    obtain ⟨p, -, rfl⟩ := List.mem_map.mp hx
    cases hseen
    exact hf
  induction h with
  | done f => exact ⟨hf, fun x hx => absurd hx List.not_mem_nil⟩
  | @close f g via t n chores story hn hopen h ih =>
    obtain ⟨hg, hstory⟩ := ih (hclose f t hf)
    refine ⟨hg, fun x hx seen hseen => ?_⟩
    obtain hx | hx := List.mem_append.mp hx
    · exact harrival f via t hf x hx seen hseen
    · obtain rfl | hx := List.mem_cons.mp hx
      · cases hseen
      · exact hstory x hx seen hseen
  | @skip f g via t chores story hopen h ih =>
    obtain ⟨hg, hstory⟩ := ih hf
    refine ⟨hg, fun x hx seen hseen => ?_⟩
    obtain hx | hx := List.mem_append.mp hx
    · exact harrival f via t hf x hx seen hseen
    · exact hstory x hx seen hseen
  | call h ih =>
    obtain ⟨hg, hstory⟩ := ih hf
    refine ⟨hg, fun x hx seen hseen => ?_⟩
    obtain rfl | hx := List.mem_cons.mp hx
    · cases hseen
      exact hf
    · exact hstory x hx seen hseen
  | release h ih => exact ih (hsweep _ _ hf)

theorem isCancelled_closeNode_of_isCancelled (f : Forest) (t : Token)
    (h : f.isCancelled u = true) : (f.modify t closeNode).isCancelled u = true := by
  rw [isCancelled, node?_modify]
  split
  · obtain ⟨n, hn, -⟩ := isCancelled_iff.mp h
    rw [hn]
    rfl
  · exact h

theorem Course.isCancelled (h : Course f chores story g) (hu : f.isCancelled u = true) :
    g.isCancelled u = true :=
  (h.preserves (P := fun f => f.isCancelled u = true)
    (fun f t => f.isCancelled_closeNode_of_isCancelled t)
    (fun f tasks hf => by rwa [isCancelled_sweep]) hu).1

/-- A token that can be cancelled is as it was from the beginning. -/
theorem Course.node?_of_isOpen (h : Course f chores story g) (hu : g.isOpen u = true) :
    g.node? u = f.node? u := by
  induction h with
  | done f => rfl
  | @close f g via t n chores story hn hopen h ih =>
    rw [ih hu, node?_modify_of_ne]
    rintro rfl
    have hclosed := h.isCancelled ((isCancelled_close hn).mpr (.inl rfl))
    rw [isOpen_eq_false_of_isCancelled hclosed] at hu
    cases hu
  | skip hopen h ih => exact ih hu
  | call h ih => exact ih hu
  | @release f g c chores story h ih =>
    rw [ih hu]
    exact node?_sweep_of_isOpen (isOpen_congr (ih hu) ▸ hu)

/-! ## Which tokens are cancelled -/

theorem mem_arrival {x : Moment} : x ∈ f.arrival via t ↔ ∃ p, via = some p ∧ x = .passed p t f := by
  cases via <;> simp [arrival]

theorem closed_mem_arrival_append :
    .closed u ∈ f.arrival via t ++ story ↔ .closed u ∈ story := by
  cases via <;> simp [arrival]

theorem called_mem_arrival_append {c : Callback} {seen : Forest} :
    .called u c seen ∈ f.arrival via t ++ story ↔ .called u c seen ∈ story := by
  cases via <;> simp [arrival]

theorem Course.isOpen_of_closed (h : Course f chores story g) (hu : .closed u ∈ story) :
    f.isOpen u = true := by
  induction h with
  | done f => cases hu
  | @close f g via t n chores story hn hopen h ih =>
    obtain hx | hu := List.mem_cons.mp (closed_mem_arrival_append.mp hu)
    · cases hx
      exact hopen
    · exact (isOpen_of_isOpen_closeNode (ih hu)).2
  | skip hopen h ih => exact ih (closed_mem_arrival_append.mp hu)
  | call h ih => exact ih ((List.mem_cons.mp hu).resolve_left nofun)
  | release h ih => exact isOpen_congr (node?_sweep_of_isOpen (ih hu)) ▸ ih hu

theorem Course.closed_mem_iff (h : Course f chores story g) :
    .closed u ∈ story ↔ f.isCancelled u = false ∧ g.isCancelled u = true := by
  induction h with
  | done f => simp
  | @close f g via t n chores story hn hopen h ih =>
    rw [closed_mem_arrival_append, List.mem_cons, ih, Moment.closed.injEq, ← Bool.not_eq_true,
      isCancelled_close hn]
    by_cases hu : u = t
    · subst hu
      have hclosed := h.isCancelled ((isCancelled_close hn).mpr (.inl rfl))
      simp [hclosed, isCancelled_of_isOpen hopen]
    · simp [hu]
  | skip hopen h ih => rw [closed_mem_arrival_append, ih]
  | call h ih => simpa using ih
  | release h ih => rw [ih, isCancelled_sweep]

end Forest
end AgentMemory.Cancel
