import AgentMemory.Proofs.Cancel.Course

/-!
# Callbacks

What a course says of one token: it is cancelled, its callbacks are called in the order in which
they were registered, and then the cancel is passed on to its children, each of these once and
nothing of it if the token is not cancelled. So callbacks that cancel other tokens do not disturb
each other, and what is cancelled is what the links and the callbacks lead to.
-/

namespace AgentMemory.Cancel

/-! ## What a moment and a chore are to one token -/

/-- What happens to a token: it is cancelled, a callback of it is called, it passes the cancel on.
-/
inductive Mark where
  | closed
  | called (c : Callback)
  | passed (child : Token)

def Moment.mark? (u : Token) : Moment → Option Mark
  | closed t => if t = u then some .closed else none
  | called t c _ => if t = u then some (.called c) else none
  | passed p v _ => if p = u then some (.passed v) else none

def Chore.mark? (u : Token) : Chore → Option Mark
  | cancel via v => if via = some u then some (.passed v) else none
  | call t c => if t = u then some (.called c) else none
  | release _ => none

/-- What happens to a token once it is cancelled. -/
def Node.marks (n : Node) : List Mark := n.callbacks.map .called ++ n.children.map .passed

theorem Chore.mark?_of_source {x : Chore} {u : Token} (h : x.source? ≠ some u) :
    x.mark? u = none := by
  cases x with
  | cancel via v => exact if_neg h
  | call t c => exact if_neg fun ht => h (congrArg some ht)
  | release c => rfl

theorem Node.source?_of_mem_chores {n : Node} {t : Token} {x : Chore} (hx : x ∈ n.chores t) :
    x.source? = some t := by
  obtain hx | hx := List.mem_append.mp hx
  · obtain ⟨c, -, rfl⟩ := List.mem_map.mp hx
    rfl
  · obtain ⟨v, -, rfl⟩ := List.mem_map.mp hx
    rfl

theorem Callback.source?_of_mem_chores {c : Callback} {x : Chore} (hx : x ∈ c.chores) :
    x.source? = none := by
  obtain hx | hx := List.mem_append.mp hx
  · obtain ⟨v, -, rfl⟩ := List.mem_map.mp hx
    rfl
  · rw [List.mem_singleton.mp hx]
    rfl

def marks (u : Token) (story : List Moment) : List Mark := story.filterMap (·.mark? u)

/-- What is still to happen to a token. -/
def due (u : Token) (chores : List Chore) : List Mark := chores.filterMap (·.mark? u)

section

variable (u : Token)

theorem marks_append (xs ys : List Moment) : marks u (xs ++ ys) = marks u xs ++ marks u ys :=
  List.filterMap_append

theorem marks_cons (x : Moment) (xs : List Moment) :
    marks u (x :: xs) = (x.mark? u).toList ++ marks u xs := by
  rw [marks, List.filterMap_cons]
  cases x.mark? u <;> rfl

theorem exists_called_of_mem_marks {story : List Moment} {c : Callback} {u : Token}
    (h : .called c ∈ marks u story) : ∃ seen, .called u c seen ∈ story := by
  obtain ⟨x, hx, hmark⟩ := List.mem_filterMap.mp h
  cases x with
  | called t d seen =>
    obtain ⟨rfl, rfl⟩ : t = u ∧ d = c := by simpa [Moment.mark?] using hmark
    exact ⟨seen, hx⟩
  | closed t => simp [Moment.mark?] at hmark
  | passed p v seen => simp [Moment.mark?] at hmark

theorem due_append (xs ys : List Chore) : due u (xs ++ ys) = due u xs ++ due u ys :=
  List.filterMap_append

theorem due_cons (x : Chore) (xs : List Chore) :
    due u (x :: xs) = (x.mark? u).toList ++ due u xs := by
  rw [due, List.filterMap_cons]
  cases x.mark? u <;> rfl

theorem due_of_source {chores : List Chore} (h : ∀ x ∈ chores, x.source? ≠ some u) :
    due u chores = [] :=
  List.filterMap_eq_nil_iff.mpr fun x hx => Chore.mark?_of_source (h x hx)

theorem due_chores (n : Node) : due u (n.chores u) = n.marks := by
  simp [due, Node.chores, Node.marks, List.filterMap_append, List.filterMap_map, Chore.mark?]

theorem due_chores_of_ne {t : Token} (h : t ≠ u) (n : Node) : due u (n.chores t) = [] := by
  refine due_of_source u fun x hx hsource => h ?_
  exact Option.some.inj ((Node.source?_of_mem_chores hx).symm.trans hsource)

theorem due_callback_chores (c : Callback) : due u c.chores = [] := by
  refine due_of_source u fun x hx hsource => ?_
  cases (Callback.source?_of_mem_chores hx).symm.trans hsource

end

namespace Forest

variable {f g : Forest} {t u v w p : Token} {via : Option Token} {n m : Node} {c : Callback}
  {chores : List Chore} {story : List Moment} {seen : Forest}

theorem marks_arrival (f : Forest) (via : Option Token) (t u : Token) :
    marks u (f.arrival via t) = ((Chore.cancel via t).mark? u).toList := by
  cases via with
  | none => rfl
  | some p => by_cases h : p = u <;> simp [marks, arrival, Moment.mark?, Chore.mark?, h]

/-- A token has been cancelled on the way from one forest to the other. -/
def Newly (f g : Forest) (u : Token) : Prop := f.isCancelled u = false ∧ g.isCancelled u = true

instance (f g : Forest) (u : Token) : Decidable (Newly f g u) := inferInstanceAs (Decidable (_ ∧ _))

/-- Chores are left from tokens that are cancelled. -/
def Sourced (f : Forest) (chores : List Chore) : Prop :=
  ∀ x ∈ chores, ∀ u, x.source? = some u → f.isCancelled u = true

theorem Sourced.tail {x : Chore} (h : f.Sourced (x :: chores)) : f.Sourced chores :=
  fun y hy => h y (List.mem_cons_of_mem x hy)

theorem Sourced.close (h : f.Sourced (.cancel via t :: chores)) (hn : f.node? t = some n) :
    (f.modify t closeNode).Sourced (n.chores t ++ chores) := by
  intro x hx u hu
  obtain hx | hx := List.mem_append.mp hx
  · rw [Node.source?_of_mem_chores hx] at hu
    exact (isCancelled_close hn).mpr (.inl (Option.some.inj hu).symm)
  · exact (isCancelled_close hn).mpr (.inr (h.tail x hx u hu))

theorem Sourced.call (h : f.Sourced (.call t c :: chores)) : f.Sourced (c.chores ++ chores) := by
  intro x hx u hu
  obtain hx | hx := List.mem_append.mp hx
  · rw [Callback.source?_of_mem_chores hx] at hu
    cases hu
  · exact h.tail x hx u hu

theorem Sourced.sweep (h : f.Sourced chores) (tasks : List Task) :
    (f.sweep tasks).Sourced chores := by
  intro x hx u hu
  rw [isCancelled_sweep]
  exact h x hx u hu

theorem Sourced.due_eq_nil (h : f.Sourced chores) (hu : f.isCancelled u = false) :
    due u chores = [] := by
  refine due_of_source u fun x hx hsource => ?_
  rw [h x hx u hsource] at hu
  cases hu

/-- **The course of one token**: what was still due, and if it is cancelled on the way, that it is,
its callbacks in the order in which they were registered, and then its children. -/
theorem Course.marks_eq (h : Course f chores story g) (hsourced : f.Sourced chores) (u : Token) :
    marks u story = due u chores ++
      if Newly f g u then .closed :: (f.node? u).elim [] Node.marks else [] := by
  induction h with
  | done f => simp [Newly, marks, due]
  | @close f g via t n chores story hn hopen h ih =>
    have hclosed : (f.modify t closeNode).isCancelled t = true :=
      (isCancelled_close hn).mpr (.inl rfl)
    rw [marks_append, marks_cons, marks_arrival, due_cons, ih (hsourced.close hn), due_append]
    by_cases hu : t = u
    · subst hu
      -- nothing was due for a token that is not cancelled
      have hbefore := isCancelled_of_isOpen hopen
      have hdue := hsourced.due_eq_nil hbefore
      rw [due_cons] at hdue
      obtain ⟨hfirst, hrest⟩ := List.append_eq_nil_iff.mp hdue
      rw [due_chores, hrest, hfirst, if_neg (by simp [Newly, hclosed]),
        if_pos ⟨hbefore, h.isCancelled hclosed⟩, hn]
      simp [Moment.mark?]
    · have hsame : (f.modify t closeNode).node? u = f.node? u := node?_modify_of_ne hu
      have hnewly : Newly (f.modify t closeNode) g u ↔ Newly f g u := by
        simp only [Newly, Forest.isCancelled, hsame]
      rw [due_chores_of_ne u hu, hsame]
      simp [Moment.mark?, hu, hnewly]
  | @skip f g via t chores story hopen h ih =>
    rw [marks_append, marks_arrival, ih hsourced.tail, due_cons, List.append_assoc]
  | @call f g owner c chores story h ih =>
    rw [marks_cons, ih hsourced.call, due_append, due_callback_chores, due_cons, List.nil_append,
      List.append_assoc]
    rfl
  | @release f g c chores story h ih =>
    have hnewly : Newly (f.sweep (chores.map Chore.task)) g u ↔ Newly f g u := by
      simp only [Newly, isCancelled_sweep]
    rw [ih (hsourced.tail.sweep _), due_cons, show (Chore.release c).mark? u = none from rfl,
      Option.toList_none, List.nil_append]
    by_cases hnew : Newly f g u
    · -- a token that is cancelled later on has not been let go
      have hopen := h.isOpen_of_closed (h.closed_mem_iff.mpr (hnewly.mpr hnew))
      rw [if_pos (hnewly.mpr hnew), if_pos hnew, node?_sweep_of_isOpen hopen]
    · rw [if_neg (mt hnewly.mp hnew), if_neg hnew]

theorem Course.isCancelled_of_called (h : Course f chores story g) (hsourced : f.Sourced chores)
    (hcall : .called u c seen ∈ story) : seen.isCancelled u = true := by
  induction h with
  | done f => cases hcall
  | close hn hopen h ih =>
    have hrest := (List.mem_cons.mp (called_mem_arrival_append.mp hcall)).resolve_left nofun
    exact ih (hsourced.close hn) hrest
  | skip hopen h ih => exact ih hsourced.tail (called_mem_arrival_append.mp hcall)
  | call h ih =>
    obtain hx | hcall := List.mem_cons.mp hcall
    · cases hx
      exact hsourced _ List.mem_cons_self u rfl
    · exact ih hsourced.call hcall
  | release h ih => exact ih (hsourced.tail.sweep _) hcall

/-! ## What is mentioned is kept -/

/-- A task or a callback mentions a token. -/
def Mentioned (tasks : List Task) (f : Forest) (w : Token) : Prop :=
  (∃ x ∈ tasks, x.mentions w = true) ∨
    ∃ u n c, f.node? u = some n ∧ c ∈ n.callbacks ∧ c.mentions w = true

/-- What tasks and callbacks mention is not dropped. -/
def Kept (tasks : List Task) (f : Forest) : Prop :=
  ∀ w, Mentioned tasks f w → f.isDropped w = false

theorem isHeld_of_mentioned {tasks : List Task} (h : Mentioned tasks f w) (n : Node) :
    f.isHeld tasks w n = true := by
  rw [isHeld, Bool.or_eq_true, Bool.or_eq_true]
  obtain ⟨x, hx, hw⟩ | ⟨u, m, c, hm, hc, hw⟩ := h
  · exact .inl (.inr (List.any_eq_true.mpr ⟨x, hx, hw⟩))
  · refine .inr (List.any_eq_true.mpr ⟨m, List.mem_of_getElem? hm, ?_⟩)
    exact List.any_eq_true.mpr ⟨c, hc, hw⟩

theorem isDropped_dropUnheld {tasks : List Task} (h : ∀ n, f.isHeld tasks w n = true) :
    (f.dropUnheld tasks).isDropped w = f.isDropped w := by
  rw [isDropped, holding?, node?_dropUnheld_eq, isDropped, holding?]
  simp only [h, if_true]
  cases f.node? w <;> rfl

theorem isDropped_sweep_of_task {tasks : List Task} {x : Task} (hx : x ∈ tasks)
    (hw : x.mentions w = true) : (f.sweep tasks).isDropped w = f.isDropped w :=
  sweep_induct (P := fun g => g.isDropped w = f.isDropped w)
    (fun _ hg => (isDropped_dropUnheld (isHeld_of_mentioned (.inl ⟨x, hx, hw⟩))).trans hg) rfl

theorem Kept.dropUnheld {tasks : List Task} (h : Kept tasks f) :
    Kept tasks (f.dropUnheld tasks) := by
  intro w hw
  have hbefore : Mentioned tasks f w := by
    refine hw.imp_right ?_
    rintro ⟨u, m, c, hm, hc, hw⟩
    rw [node?_dropUnheld_eq] at hm
    obtain ⟨n, hn, rfl⟩ := Option.map_eq_some_iff.mp hm
    split at hc
    · exact ⟨u, n, c, hn, hc, hw⟩
    · cases hc
  rw [isDropped_dropUnheld (isHeld_of_mentioned hbefore)]
  exact h w hbefore

theorem Kept.sweep {tasks : List Task} (h : Kept tasks f) : Kept tasks (f.sweep tasks) :=
  sweep_induct (P := Kept tasks) (fun _ => Kept.dropUnheld) h

theorem Kept.mono {tasks tasks' : List Task} (h : Kept tasks f)
    (hsub : ∀ x ∈ tasks', ∀ w, x.mentions w = true → Mentioned tasks f w) : Kept tasks' f := by
  intro w hw
  obtain ⟨x, hx, hxw⟩ | hw := hw
  · exact h w (hsub x hx w hxw)
  · exact h w (.inr hw)

theorem Kept.tail {x : Task} {tasks : List Task} (h : Kept (x :: tasks) f) : Kept tasks f :=
  h.mono fun y hy _ hw => .inl ⟨y, List.mem_cons_of_mem x hy, hw⟩

theorem Kept.cancel (h : Kept [] f) (t : Token) : Kept [.cancel t] f :=
  h.mono fun x hx w hw => by
    rw [List.mem_singleton.mp hx] at hw
    cases hw

theorem Kept.call (h : Kept ((Chore.call u c :: chores).map Chore.task) f) :
    Kept ((c.chores ++ chores).map Chore.task) f := by
  rw [List.map_append, Callback.map_task_chores]
  refine h.mono fun x hx w hw => .inl ?_
  obtain hx | hx := List.mem_append.mp hx
  · refine ⟨.call c, List.mem_cons_self, ?_⟩
    obtain hx | hx := List.mem_append.mp hx
    · obtain ⟨v, -, rfl⟩ := List.mem_map.mp hx
      cases hw
    · rw [List.mem_singleton.mp hx] at hw
      exact hw
  · exact ⟨x, List.mem_cons_of_mem _ hx, hw⟩

theorem Kept.close (h : Kept ((Chore.cancel via t :: chores).map Chore.task) f)
    (hn : f.node? t = some n) :
    Kept ((n.chores t ++ chores).map Chore.task) (f.modify t closeNode) := by
  intro w hw
  rw [isDropped_congr (holding?_close f t w)]
  apply h w
  obtain ⟨x, hx, hxw⟩ | ⟨u, m, c, hm, hc, hw⟩ := hw
  · rw [List.map_append] at hx
    obtain hx | hx := List.mem_append.mp hx
    · -- the callbacks of the token are mentioned by its node
      obtain ⟨y, hy, rfl⟩ := List.mem_map.mp hx
      obtain hy | hy := List.mem_append.mp hy
      · obtain ⟨c, hc, rfl⟩ := List.mem_map.mp hy
        exact .inr ⟨t, n, c, hn, hc, hxw⟩
      · obtain ⟨v, -, rfl⟩ := List.mem_map.mp hy
        cases hxw
    · exact .inl ⟨x, List.mem_cons_of_mem _ hx, hxw⟩
  · rw [node?_modify] at hm
    split at hm
    · obtain ⟨k, -, rfl⟩ := Option.map_eq_some_iff.mp hm
      cases hc
    · exact .inr ⟨u, m, c, hm, hc, hw⟩

theorem Course.kept (h : Course f chores story g) (hkept : Kept (chores.map Chore.task) f) :
    Kept [] g := by
  induction h with
  | done f => exact hkept
  | close hn hopen h ih => exact ih (hkept.close hn)
  | skip hopen h ih => exact ih hkept.tail
  | call h ih => exact ih hkept.call
  | release h ih => exact ih hkept.tail.sweep

end Forest
end AgentMemory.Cancel
