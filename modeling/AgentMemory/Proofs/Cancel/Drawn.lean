import AgentMemory.Proofs.Cancel.Callbacks

/-!
# What a cancel draws in

A token that is cancelled draws in its children, unless nothing holds them any more when the cancel
comes to them, and what its callbacks cancel. The tokens that a cancel has cancelled in the end are
those that are drawn in from the first one.
-/

namespace AgentMemory.Cancel.Forest

variable {f g : Forest} {t u v w p : Token} {via : Option Token} {n m : Node} {c : Callback}
  {chores : List Chore} {story : List Moment} {seen : Forest} {roots : List Token}

/-- A token is drawn in from others: it can be cancelled, and it is one of them, a child of one
drawn in that is held when the cancel comes to it, or one that a callback of one drawn in cancels.
-/
inductive Drawn (f : Forest) (story : List Moment) (roots : List Token) : Token → Prop
  | root {t : Token} (ht : t ∈ roots) (hopen : f.isOpen t = true) : Drawn f story roots t
  | child {u v : Token} {n : Node} {seen : Forest} (h : Drawn f story roots u)
      (hn : f.node? u = some n) (hv : v ∈ n.children) (hopen : f.isOpen v = true)
      (hpassed : .passed u v seen ∈ story) (hlive : seen.isDropped v = false) :
      Drawn f story roots v
  | call {u w : Token} {n : Node} {c : Callback} (h : Drawn f story roots u)
      (hn : f.node? u = some n) (hc : c ∈ n.callbacks) (hw : w ∈ c.cancels)
      (hopen : f.isOpen w = true) : Drawn f story roots w

/-! ## What is cancelled is drawn in -/

/-- What a chore cancels is drawn in. -/
def Justified (f : Forest) (story : List Moment) (roots : List Token) : Chore → Prop
  | .cancel none v => f.isOpen v = true → Drawn f story roots v
  | .cancel (some p) v => Drawn f story roots p ∧ ∃ n, f.node? p = some n ∧ v ∈ n.children
  | .call _ c => ∀ w ∈ c.cancels, f.isOpen w = true → Drawn f story roots w
  | .release _ => True

theorem Justified.drawn (h : Justified f story roots (.cancel via v)) (hopen : f.isOpen v = true)
    (hheld : seen.isDropped v = false) (hstory : seen.arrival via v ⊆ story) :
    Drawn f story roots v := by
  cases via with
  | none => exact h hopen
  | some p =>
    obtain ⟨hp, n, hn, hv⟩ := h
    exact .child hp hn hv hopen (hstory (mem_arrival.mpr ⟨p, rfl, rfl⟩)) hheld

theorem Course.drawn {f₀ : Forest} {whole : List Moment} (h : Course f chores story g)
    (hstory : story ⊆ whole) (hjustified : ∀ x ∈ chores, Justified f₀ whole roots x)
    (hsame : ∀ u, f.isOpen u = true → f.node? u = f₀.node? u) (hu : .closed u ∈ story) :
    Drawn f₀ whole roots u := by
  induction h with
  | done f => cases hu
  | @close f g via t n chores story hn hopen h ih =>
    obtain ⟨hfirst, hrest⟩ := List.forall_mem_cons.mp hjustified
    have hnode : f₀.node? t = some n := (hsame t hopen).symm.trans hn
    have ht : Drawn f₀ whole roots t := by
      refine hfirst.drawn ((isOpen_congr (hsame t hopen)).symm.trans hopen) ?_
        (List.append_subset.mp hstory).1
      obtain ⟨m, hm, -, hkept⟩ := isOpen_iff.mp hopen
      rw [isDropped_eq hm, hkept]
    obtain hx | hu := List.mem_cons.mp (closed_mem_arrival_append.mp hu)
    · cases hx
      exact ht
    · refine ih (List.cons_subset.mp (List.append_subset.mp hstory).2).2 ?_ ?_ hu
      · intro x hx
        obtain hx | hx := List.mem_append.mp hx
        · obtain hx | hx := List.mem_append.mp hx
          · obtain ⟨c, hc, rfl⟩ := List.mem_map.mp hx
            exact fun w hw hw' => .call ht hnode hc hw hw'
          · obtain ⟨v, hv, rfl⟩ := List.mem_map.mp hx
            exact ⟨ht, n, hnode, hv⟩
        · exact hrest x hx
      · intro u hu
        obtain ⟨hne, hbefore⟩ := isOpen_of_isOpen_closeNode hu
        rw [node?_modify_of_ne hne, hsame u hbefore]
  | @skip f g via t chores story hopen h ih =>
    exact ih (List.append_subset.mp hstory).2 (List.forall_mem_cons.mp hjustified).2 hsame
      (closed_mem_arrival_append.mp hu)
  | @call f g owner c chores story h ih =>
    obtain ⟨hcancels, hrest⟩ := List.forall_mem_cons.mp hjustified
    refine ih (List.cons_subset.mp hstory).2 ?_ hsame ((List.mem_cons.mp hu).resolve_left nofun)
    intro x hx
    obtain hx | hx := List.mem_append.mp hx
    · obtain hx | hx := List.mem_append.mp hx
      · obtain ⟨w, hw, rfl⟩ := List.mem_map.mp hx
        exact hcancels w hw
      · rw [List.mem_singleton.mp hx]
        trivial
    · exact hrest x hx
  | @release f g c chores story h ih =>
    refine ih hstory (List.forall_mem_cons.mp hjustified).2 (fun u hu => ?_) hu
    have hnode := node?_sweep_of_isOpen hu
    rw [hnode, hsame u (isOpen_congr hnode ▸ hu)]

/-! ## What is drawn in is cancelled -/

theorem exists_node?_closeNode (h : ∃ n, f.node? v = some n) (t : Token) :
    ∃ n, (f.modify t closeNode).node? v = some n := by
  obtain ⟨n, hn⟩ := h
  rw [node?_modify_eq_map, hn]
  exact ⟨_, rfl⟩

theorem exists_node?_sweep (h : ∃ n, f.node? v = some n) (tasks : List Task) :
    ∃ n, (f.sweep tasks).node? v = some n := by
  obtain hsame | ⟨n, -, hdropped⟩ := f.node?_sweep_cases tasks v
  · rwa [hsame]
  · exact ⟨_, hdropped⟩

theorem isCancelled_of_not_isOpen (hnode : ∃ n, f.node? v = some n)
    (hkept : f.isDropped v = false) (hopen : f.isOpen v = false) : f.isCancelled v = true := by
  obtain ⟨n, hn⟩ := hnode
  rw [isDropped_eq hn] at hkept
  simpa [isOpen, isCancelled, hn, hkept] using hopen

theorem Course.isCancelled_of_passed (h : Course f chores story g)
    (hpassed : .passed p v seen ∈ story) (hlive : seen.isDropped v = false)
    (hnode : ∃ n, f.node? v = some n) : g.isCancelled v = true := by
  induction h with
  | done f => cases hpassed
  | @close f g via t n chores story hn hopen h ih =>
    obtain hx | hx := List.mem_append.mp hpassed
    · obtain ⟨q, -, hx⟩ := mem_arrival.mp hx
      cases hx
      exact h.isCancelled ((isCancelled_close hn).mpr (.inl rfl))
    · exact ih ((List.mem_cons.mp hx).resolve_left nofun) (exists_node?_closeNode hnode t)
  | @skip f g via t chores story hopen h ih =>
    obtain hx | hx := List.mem_append.mp hpassed
    · obtain ⟨q, -, hx⟩ := mem_arrival.mp hx
      cases hx
      exact h.isCancelled (isCancelled_of_not_isOpen hnode hlive hopen)
    · exact ih hx hnode
  | call h ih => exact ih ((List.mem_cons.mp hpassed).resolve_left nofun) hnode
  | release h ih => exact ih hpassed (exists_node?_sweep hnode _)

theorem Course.isCancelled_of_awaited {ahead behind : List Chore}
    (h : Course f (ahead ++ .cancel none w :: behind) story g) (hrelease : .release c ∈ behind)
    (hmentions : c.mentions w = true) (hnode : ∃ n, f.node? w = some n)
    (hkept : f.isDropped w = false) : g.isCancelled w = true := by
  generalize hchores : ahead ++ Chore.cancel none w :: behind = chores at h
  induction h generalizing ahead with
  | done f => simp at hchores
  | @close f g via t n chores story hn hopen h ih =>
    cases ahead with
    | nil =>
      obtain ⟨⟨rfl, rfl⟩, rfl⟩ : (_ ∧ _) ∧ _ := by simpa using hchores
      exact h.isCancelled ((isCancelled_close hn).mpr (.inl rfl))
    | cons x ahead =>
      obtain ⟨rfl, rfl⟩ := List.cons.inj hchores
      refine ih (exists_node?_closeNode hnode t) ?_ (List.append_assoc (n.chores t) ahead _)
      rwa [isDropped_congr (holding?_close f t w)]
  | @skip f g via t chores story hopen h ih =>
    cases ahead with
    | nil =>
      obtain ⟨⟨rfl, rfl⟩, rfl⟩ : (_ ∧ _) ∧ _ := by simpa using hchores
      exact h.isCancelled (isCancelled_of_not_isOpen hnode hkept hopen)
    | cons x ahead =>
      obtain ⟨rfl, rfl⟩ := List.cons.inj hchores
      exact ih hnode hkept rfl
  | @call f g owner d chores story h ih =>
    cases ahead with
    | nil => cases hchores
    | cons x ahead =>
      obtain ⟨rfl, rfl⟩ := List.cons.inj hchores
      exact ih hnode hkept (List.append_assoc d.chores ahead _)
  | @release f g d chores story h ih =>
    cases ahead with
    | nil => cases hchores
    | cons x ahead =>
      obtain ⟨rfl, rfl⟩ := List.cons.inj hchores
      refine ih (exists_node?_sweep hnode _) ?_ rfl
      have htask : Task.release c ∈ (ahead ++ .cancel none w :: behind).map Chore.task :=
        List.mem_map.mpr ⟨.release c,
          List.mem_append_right ahead (List.mem_cons_of_mem _ hrelease), rfl⟩
      exact (isDropped_sweep_of_task htask hmentions).trans hkept

theorem Course.isCancelled_of_called_cancels (h : Course f chores story g)
    (hkept : Kept (chores.map Chore.task) f) (hcall : .called u c seen ∈ story)
    (hw : w ∈ c.cancels) (hnode : ∃ n, f.node? w = some n) : g.isCancelled w = true := by
  induction h with
  | done f => cases hcall
  | @close f g via t n chores story hn hopen h ih =>
    have hrest := (List.mem_cons.mp (called_mem_arrival_append.mp hcall)).resolve_left nofun
    exact ih (hkept.close hn) hrest (exists_node?_closeNode hnode t)
  | skip hopen h ih => exact ih hkept.tail (called_mem_arrival_append.mp hcall) hnode
  | @call f g owner d chores story h ih =>
    obtain hx | hcall := List.mem_cons.mp hcall
    · cases hx
      have hmentions : c.mentions w = true := by
        rw [Callback.mentions, List.contains_iff_mem.mpr hw, Bool.true_or]
      obtain ⟨before, after, hsplit⟩ := List.append_of_mem hw
      have hchores : c.chores ++ chores = before.map (.cancel none) ++ .cancel none w ::
          (after.map (.cancel none) ++ [.release c] ++ chores) := by
        simp [Callback.chores, hsplit]
      rw [hchores] at h
      refine h.isCancelled_of_awaited ?_ hmentions hnode ?_
      · simp
      · exact hkept w (.inl ⟨.call c, List.mem_cons_self, hmentions⟩)
    · exact ih hkept.call hcall hnode
  | release h ih => exact ih hkept.tail.sweep hcall (exists_node?_sweep hnode _)

/-! ## Held tokens -/

/-- Something outside has a handle to the token. -/
def Handled (f : Forest) (v : Token) : Prop :=
  ∃ n, f.node? v = some n ∧ 0 < n.handles ∧ n.dropped = false

theorem Handled.sweep (h : f.Handled v) (tasks : List Task) : (f.sweep tasks).Handled v := by
  refine sweep_induct (P := fun f => f.Handled v) ?_ h
  rintro f ⟨n, hn, hhandles, hkept⟩
  refine ⟨n, ?_, hhandles, hkept⟩
  rw [node?_dropUnheld_eq, hn]
  simp [isHeld, hhandles]

theorem Handled.close (h : f.Handled v) (t : Token) : (f.modify t closeNode).Handled v := by
  obtain ⟨n, hn, hheld⟩ := h
  rw [Handled, node?_modify_eq_map, hn]
  by_cases ht : t = v
  · exact ⟨closeNode n, by simp [ht], hheld⟩
  · exact ⟨n, by simp [ht], hheld⟩

theorem Course.isDropped_of_handled (h : Course f chores story g) (hv : f.Handled v)
    (hpassed : .passed p v seen ∈ story) : seen.isDropped v = false := by
  obtain ⟨n, hn, -, hkept⟩ := (h.preserves (P := fun f => f.Handled v)
    (fun f t hf => hf.close t) (fun f tasks hf => hf.sweep tasks) hv).2 _ hpassed seen rfl
  rw [isDropped_eq hn, hkept]

/-! ## The closure -/

/-- **What is cancelled** is what is drawn in from those whose cancel comes first. -/
theorem Course.newly_iff_drawn (h : Course f chores story g) (hsourced : f.Sourced chores)
    (hkept : Kept (chores.map Chore.task) f)
    (hjustified : ∀ x ∈ chores, Justified f story roots x)
    (hroots : ∀ w ∈ roots, f.isOpen w = true → g.isCancelled w = true) :
    Newly f g u ↔ Drawn f story roots u := by
  constructor
  · intro hnew
    exact h.drawn (List.Subset.refl _) hjustified (fun _ _ => rfl) (h.closed_mem_iff.mpr hnew)
  · intro hdrawn
    induction hdrawn with
    | root ht hopen => exact ⟨isCancelled_of_isOpen hopen, hroots _ ht hopen⟩
    | child hu hn hv hopen hpassed hlive ih =>
      obtain ⟨m, hm, -⟩ := isOpen_iff.mp hopen
      exact ⟨isCancelled_of_isOpen hopen, h.isCancelled_of_passed hpassed hlive ⟨m, hm⟩⟩
    | @call u w n c hu hn hc hw hopen ih =>
      obtain ⟨m, hm, -⟩ := isOpen_iff.mp hopen
      refine ⟨isCancelled_of_isOpen hopen, ?_⟩
      -- the token of the callback is cancelled, so the callback has been called
      have hmark : Mark.called c ∈ marks u story := by
        rw [h.marks_eq hsourced, if_pos ih, hn]
        simp [Node.marks, hc]
      obtain ⟨seen, hcalled⟩ := exists_called_of_mem_marks hmark
      exact h.isCancelled_of_called_cancels hkept hcalled hw ⟨m, hm⟩

end AgentMemory.Cancel.Forest
