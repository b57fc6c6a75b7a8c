import AgentMemory.Cancel.Forest
import Mathlib.Data.List.Basic

/-!
# What a cancel reaches

A parent leads to its children only as long as something holds it. A forest is **linked** when every
token that can still be cancelled is a child of the token it was derived from, unless that one has
been dropped, or is waiting to be cancelled. Cancelling keeps a forest linked, so what it cancels is
what can be reached from the token along a **line** of which no token has been dropped.

Nothing here is called when a token is cancelled.
-/

namespace AgentMemory.Cancel

/-! ## Lines -/

/-- The second token comes from the first, through none that is gone; nor is either of the two. -/
inductive Line (parent? : Token → Option Token) (Gone : Token → Prop) : Token → Token → Prop
  | self {a : Token} (ha : ¬ Gone a) : Line parent? Gone a a
  | child {a p t : Token} (h : Line parent? Gone a p) (hp : parent? t = some p) (ht : ¬ Gone t) :
      Line parent? Gone a t

namespace Line

variable {parent? parent?' : Token → Option Token} {Gone Gone' : Token → Prop} {a b t : Token}

theorem not_gone (h : Line parent? Gone a t) : ¬ Gone t := by
  cases h with
  | self ha => exact ha
  | child _ _ ht => exact ht

theorem not_gone_left (h : Line parent? Gone a t) : ¬ Gone a := by
  induction h with
  | self ha => exact ha
  | child _ _ _ ih => exact ih

theorem trans (hab : Line parent? Gone a b) (hbt : Line parent? Gone b t) :
    Line parent? Gone a t := by
  induction hbt with
  | self _ => exact hab
  | child _ hp ht ih => exact .child ih hp ht

theorem mono (hparent : ∀ t p, parent? t = some p → parent?' t = some p)
    (hgone : ∀ t, Gone' t → Gone t) (h : Line parent? Gone a t) : Line parent?' Gone' a t := by
  induction h with
  | self ha => exact .self fun hg => ha (hgone _ hg)
  | child _ hp ht ih => exact .child ih (hparent _ _ hp) fun hg => ht (hgone _ hg)

end Line

namespace Forest

variable {f : Forest} {t u : Token} {n : Node} {change : Node → Node}

/-! ## Nodes after a change -/

theorem node?_modify : (f.modify t change).node? u =
    if t = u then (f.node? u).map change else f.node? u := by
  obtain ⟨i⟩ := t
  obtain ⟨j⟩ := u
  simp only [node?, modify, List.getElem?_modify, Token.mk.injEq]
  split <;> simp

theorem node?_modify_self : (f.modify t change).node? t = (f.node? t).map change := by
  rw [node?_modify, if_pos rfl]

theorem node?_modify_of_ne (h : t ≠ u) : (f.modify t change).node? u = f.node? u := by
  rw [node?_modify, if_neg h]

theorem node?_modify_eq_map (f : Forest) (t : Token) (change : Node → Node) (u : Token) :
    (f.modify t change).node? u = (f.node? u).map fun n => if t = u then change n else n := by
  rw [node?_modify]
  split <;> simp

theorem node?_add (f : Forest) (n : Node) (u : Token) :
    (f.add n).1.node? u = if u.index = f.nodes.length then some n else f.node? u := by
  simp only [add, node?, List.getElem?_append]
  grind

theorem isCancelled_iff :
    f.isCancelled t = true ↔ ∃ n, f.node? t = some n ∧ n.cancelled = true := by
  simp [isCancelled, Option.any_eq_true]

theorem isOpen_iff : f.isOpen t = true ↔
    ∃ n, f.node? t = some n ∧ n.cancelled = false ∧ n.dropped = false := by
  simp [isOpen, Option.any_eq_true]

/-- The number of handles to a token, and whether it is dropped. -/
def holding? (f : Forest) (t : Token) : Option (Nat × Bool) :=
  (f.node? t).map fun n => (n.handles, n.dropped)

def isDropped (f : Forest) (t : Token) : Bool := (f.holding? t).any (·.2)

theorem isDropped_eq (h : f.node? t = some n) : f.isDropped t = n.dropped := by
  simp [isDropped, holding?, h]

theorem isDropped_iff : f.isDropped t = true ↔ ∃ n, f.node? t = some n ∧ n.dropped = true := by
  simp [isDropped, holding?, Option.any_eq_true]

theorem isDropped_congr {g : Forest} (h : g.holding? t = f.holding? t) :
    g.isDropped t = f.isDropped t := by
  rw [isDropped, h, isDropped]

theorem holding?_modify {change : Node → Node}
    (h : ∀ n, ((change n).handles, (change n).dropped) = (n.handles, n.dropped)) :
    (f.modify t change).holding? u = f.holding? u := by
  rw [holding?, node?_modify]
  split
  · rw [Option.map_map]
    exact congrArg (fun g => Option.map g _) (funext h)
  · rfl

/-! ## Linked forests -/

/-- Every token that can be cancelled is a child of the one that it was derived from, unless that
one is dropped, or is among those that are still to be cancelled. -/
structure Linked (parent? : Token → Option Token) (waiting : List Token) (f : Forest) : Prop where
  quiet : ∀ t n, f.node? t = some n → n.callbacks = []
  made : ∀ t p, parent? t = some p → ∃ n, f.node? t = some n
  derived : ∀ t n, f.node? t = some n → ∀ u ∈ n.children, parent? u = some t
  linked : ∀ t p, parent? t = some p → f.isOpen t = true → f.isDropped p = false →
    (∃ n, f.node? p = some n ∧ n.cancelled = false ∧ t ∈ n.children) ∨ t ∈ waiting

variable {parent? : Token → Option Token} {waiting : List Token}

theorem Linked.skip (h : f.Linked parent? (t :: waiting))
    (ht : f.isOpen t = false ∨ parent? t = none) : f.Linked parent? waiting := by
  refine ⟨h.quiet, h.made, h.derived, fun u p hp hu hdropped => ?_⟩
  obtain hchild | hwaits := h.linked u p hp hu hdropped
  · exact .inl hchild
  · obtain rfl | hwaits := List.mem_cons.mp hwaits
    · obtain hopen | hnone := ht
      · rw [hopen] at hu
        cases hu
      · rw [hnone] at hp
        cases hp
    · exact .inr hwaits

theorem Linked.of_map {g : Forest} {c : Token → Node → Node} {waiting' : List Token}
    (h : f.Linked parent? waiting) (hnode : ∀ u, g.node? u = (f.node? u).map (c u))
    (hquiet : ∀ u n, n.callbacks = [] → (c u n).callbacks = [])
    (hderived : ∀ u n, ∀ v ∈ (c u n).children, v ∈ n.children ∨ parent? v = some u)
    (hlinked : ∀ u p n, parent? u = some p → f.node? u = some n → (c u n).cancelled = false →
      (c u n).dropped = false → g.isDropped p = false →
        (∃ m, f.node? p = some m ∧ (c p m).cancelled = false ∧ u ∈ (c p m).children) ∨
          u ∈ waiting') :
    g.Linked parent? waiting' := by
  have hfound : ∀ u m, g.node? u = some m → ∃ n, f.node? u = some n ∧ c u n = m := by
    intro u m hm
    rw [hnode] at hm
    exact Option.map_eq_some_iff.mp hm
  have hchanged : ∀ u n, f.node? u = some n → g.node? u = some (c u n) := by
    intro u n hn
    rw [hnode, hn]
    rfl
  refine ⟨?_, ?_, ?_, ?_⟩
  · intro u m hm
    obtain ⟨n, hn, rfl⟩ := hfound u m hm
    exact hquiet u n (h.quiet u n hn)
  · intro u p hp
    obtain ⟨n, hn⟩ := h.made u p hp
    exact ⟨_, hchanged u n hn⟩
  · intro u m hm v hv
    obtain ⟨n, hn, rfl⟩ := hfound u m hm
    exact (hderived u n v hv).elim (h.derived u n hn v) id
  · intro u p hp hu hdropped
    obtain ⟨m, hm, hcancelled, hheld⟩ := isOpen_iff.mp hu
    obtain ⟨n, hn, rfl⟩ := hfound u m hm
    refine (hlinked u p n hp hn hcancelled hheld hdropped).imp_left ?_
    rintro ⟨m, hm, hchild⟩
    exact ⟨_, hchanged p m hm, hchild⟩

/-! ## Letting go, and taking another handle -/

/-- A node may lose its children and be dropped; else it links what it linked before. -/
structure Loosens (n m : Node) : Prop where
  quiet : n.callbacks = [] → m.callbacks = []
  cancelled : m.cancelled = n.cancelled
  dropped : n.dropped = true → m.dropped = true
  subset : m.children ⊆ n.children
  children : m.dropped = false → m.children = n.children

theorem Linked.loosen {g : Forest} {c : Token → Node → Node} (h : f.Linked parent? waiting)
    (hnode : ∀ u, g.node? u = (f.node? u).map (c u)) (hc : ∀ u n, Loosens n (c u n)) :
    g.Linked parent? waiting := by
  refine h.of_map hnode (fun u n => (hc u n).quiet)
    (fun u n v hv => .inl ((hc u n).subset hv)) ?_
  intro u p n hp hn hcancelled hheld hdropped
  have hg : ∀ m, f.node? p = some m → (c p m).dropped = false := by
    intro m hm
    rwa [isDropped_eq (n := c p m) (by rw [hnode, hm]; rfl)] at hdropped
  -- what is not dropped now was not dropped before
  have hopen : f.isOpen u = true := by
    refine isOpen_iff.mpr ⟨n, hn, ?_, ?_⟩
    · rw [← (hc u n).cancelled, hcancelled]
    · rw [← Bool.not_eq_true]
      intro hgone
      rw [(hc u n).dropped hgone] at hheld
      cases hheld
  have hkept : f.isDropped p = false := by
    rw [← Bool.not_eq_true, isDropped_iff]
    rintro ⟨m, hm, hgone⟩
    have := hg m hm
    rw [(hc p m).dropped hgone] at this
    cases this
  refine (h.linked u p hp hopen hkept).imp_left ?_
  rintro ⟨m, hm, hfalse, hchild⟩
  refine ⟨m, hm, ?_, ?_⟩
  · rw [(hc p m).cancelled, hfalse]
  · rwa [(hc p m).children (hg m hm)]

theorem Linked.modify_handles (h : f.Linked parent? waiting) (t : Token) (count : Nat → Nat) :
    (f.modify t fun n => { n with handles := count n.handles }).Linked parent? waiting := by
  refine h.loosen (node?_modify_eq_map f t _) fun u n => ?_
  split <;> exact ⟨id, rfl, id, List.Subset.refl _, fun _ => rfl⟩

/-- What becomes of the node of a token that nothing holds but its handles, if anything. -/
def settleNode (n : Node) : Node :=
  if 0 < n.handles then n else { n.cleared with dropped := true }

theorem settleNode_settleNode (n : Node) : settleNode (settleNode n) = settleNode n := by
  by_cases h : 0 < n.handles
  · simp [settleNode, h]
  · simp [settleNode, h, Node.cleared]

@[simp] theorem settleNode_handles : (settleNode n).handles = n.handles := by
  unfold settleNode
  split <;> rfl

@[simp] theorem settleNode_cancelled : (settleNode n).cancelled = n.cancelled := by
  unfold settleNode
  split <;> rfl

theorem settleNode_dropped_iff :
    (settleNode n).dropped = true ↔ n.handles = 0 ∨ n.dropped = true := by
  by_cases h : 0 < n.handles
  · simp [settleNode, h, Nat.ne_of_gt h]
  · simp [settleNode, Nat.eq_zero_of_not_pos h]

theorem loosens_settleNode (n : Node) : Loosens n (settleNode n) := by
  unfold settleNode
  split
  · exact ⟨id, rfl, id, List.Subset.refl _, fun _ => rfl⟩
  · exact ⟨fun _ => rfl, rfl, fun _ => rfl, List.nil_subset _, nofun⟩

theorem node?_dropUnheld (hquiet : ∀ u n, f.node? u = some n → n.callbacks = []) (u : Token) :
    (f.dropUnheld []).node? u = (f.node? u).map settleNode := by
  have hnone : f.nodes.any (fun n => n.callbacks.any (·.mentions u)) = false := by
    rw [List.any_eq_false]
    intro n hn
    obtain ⟨i, hi⟩ := List.getElem?_of_mem hn
    simp [hquiet ⟨i⟩ n hi]
  simp only [node?, dropUnheld, List.getElem?_mapIdx]
  refine congrArg (fun g => Option.map g _) (funext fun n => ?_)
  change (if f.isHeld [] u n then n else _) = _
  simp only [isHeld, hnone, settleNode, List.any_nil, Bool.or_false, decide_eq_true_eq]

theorem node?_sweep (hquiet : ∀ u n, f.node? u = some n → n.callbacks = []) (u : Token) :
    (f.sweep []).node? u = (f.node? u).map settleNode := by
  have hrounds : ∀ k u,
      ((k + 1).repeat (fun f : Forest => f.dropUnheld []) f).node? u =
        (f.node? u).map settleNode := by
    intro k
    induction k with
    | zero => exact fun u => node?_dropUnheld hquiet u
    | succ k ih =>
      intro u
      rw [Nat.repeat, node?_dropUnheld, ih, Option.map_map]
      · exact congrArg (fun g => Option.map g _) (funext settleNode_settleNode)
      · intro v m hm
        rw [ih] at hm
        obtain ⟨n, hn, rfl⟩ := Option.map_eq_some_iff.mp hm
        exact (loosens_settleNode n).quiet (hquiet v n hn)
  unfold sweep
  cases hsize : f.nodes.length with
  | zero =>
    have hnil : f.node? u = none := by simp [node?, List.length_eq_zero_iff.mp hsize]
    rw [Nat.repeat, hnil]
    rfl
  | succ k => exact hrounds k u

theorem node?_drop (hquiet : ∀ u n, f.node? u = some n → n.callbacks = []) (t u : Token) :
    (f.drop t).node? u = (f.node? u).map fun n =>
      settleNode (if t = u then { n with handles := n.handles - 1 } else n) := by
  unfold drop
  rw [node?_sweep, node?_modify]
  · split <;> simp [Function.comp_def]
  · intro v m hm
    rw [node?_modify] at hm
    split at hm
    · obtain ⟨n, hn, rfl⟩ := Option.map_eq_some_iff.mp hm
      exact hquiet v n hn
    · exact hquiet v m hm

theorem length_drop (f : Forest) (t : Token) : (f.drop t).nodes.length = f.nodes.length := by
  have hrounds : ∀ k (g : Forest),
      (Nat.repeat (fun f : Forest => f.dropUnheld []) k g).nodes.length = g.nodes.length := by
    intro k g
    induction k with
    | zero => rfl
    | succ k ih => rw [Nat.repeat, dropUnheld, List.length_mapIdx, ih]
  rw [drop, sweep, hrounds]
  exact List.length_modify ..

theorem isCancelled_drop (hquiet : ∀ u n, f.node? u = some n → n.callbacks = []) (t u : Token) :
    (f.drop t).isCancelled u = f.isCancelled u := by
  rw [isCancelled, node?_drop hquiet, Option.any_map, isCancelled]
  refine congrArg (fun p => Option.any p _) (funext fun n => ?_)
  show (settleNode _).cancelled = n.cancelled
  rw [settleNode_cancelled]
  split <;> rfl

theorem Linked.drop (h : f.Linked parent? waiting) (t : Token) :
    (f.drop t).Linked parent? waiting := by
  have hfewer := h.modify_handles t (· - 1)
  exact hfewer.loosen (node?_sweep hfewer.quiet) fun _ => loosens_settleNode

/-! ## New tokens -/

variable {parent?' : Token → Option Token}

theorem node?_lt (h : f.node? t = some n) : t.index < f.nodes.length :=
  (List.getElem?_eq_some_iff.mp h).1

theorem Linked.add (h : f.Linked parent? waiting) (hquiet : n.callbacks = [])
    (hchildren : n.children = [])
    (hparent : ∀ u, u.index ≠ f.nodes.length → parent?' u = parent? u) :
    (f.add n).1.Linked parent?' ((f.add n).2 :: waiting) := by
  refine ⟨?_, ?_, ?_, ?_⟩
  · intro u m hm
    rw [node?_add] at hm
    split at hm
    · cases Option.some.inj hm
      exact hquiet
    · exact h.quiet u m hm
  · intro u p hp
    rw [node?_add]
    split
    · exact ⟨n, rfl⟩
    · next hu =>
      rw [hparent u hu] at hp
      exact h.made u p hp
  · intro u m hm v hv
    rw [node?_add] at hm
    split at hm
    · cases Option.some.inj hm
      rw [hchildren] at hv
      cases hv
    · have hp := h.derived u m hm v hv
      obtain ⟨m', hm'⟩ := h.made v u hp
      rw [hparent v (Nat.ne_of_lt (node?_lt hm')), hp]
  · intro u p hp hu hdropped
    obtain ⟨m, hm, hopen⟩ := isOpen_iff.mp hu
    rw [node?_add] at hm
    split at hm
    · next hindex => exact .inr (List.mem_cons.mpr (.inl (congrArg Token.mk hindex)))
    · next hindex =>
      rw [hparent u hindex] at hp
      have hold : f.isOpen u = true := isOpen_iff.mpr ⟨m, hm, hopen⟩
      -- a token that is not there yet has no children
      have hp' : p.index ≠ f.nodes.length ∨ f.node? p = none := by
        by_cases hp' : p.index = f.nodes.length
        · exact .inr (by simp [node?, hp'])
        · exact .inl hp'
      obtain hp' | hnone := hp'
      · rw [isDropped, holding?, node?_add, if_neg hp'] at hdropped
        rw [node?_add, if_neg hp']
        exact (h.linked u p hp hold hdropped).imp_right (List.mem_cons_of_mem _)
      · obtain ⟨m', hm', -⟩ | hwaits := h.linked u p hp hold (by simp [isDropped, holding?, hnone])
        · rw [hnone] at hm'
          cases hm'
        · exact .inr (List.mem_cons_of_mem _ hwaits)

/-- The node of a token that another one is derived from. -/
def adoptNode (t : Token) (n : Node) : Node := { n with children := n.children ++ [t] }

theorem holding?_adopt (f : Forest) (p t u : Token) :
    (f.modify p (adoptNode t)).holding? u = f.holding? u := by
  rw [holding?_modify]
  exact fun _ => rfl

theorem isCancelled_adopt (f : Forest) (p t u : Token) :
    (f.modify p (adoptNode t)).isCancelled u = f.isCancelled u := by
  rw [isCancelled, node?_modify]
  split
  · rw [Option.any_map]
    rfl
  · rfl

theorem Linked.adopt (h : f.Linked parent? (t :: waiting)) {p : Token} (hp : f.node? p = some n)
    (hcancelled : n.cancelled = false) (hparent : parent? t = some p) :
    (f.modify p (adoptNode t)).Linked parent? waiting := by
  refine h.of_map (node?_modify_eq_map f p _) ?_ ?_ ?_
  · intro u m hm
    split <;> exact hm
  · intro u m v hv
    split at hv
    · next hpu =>
      obtain hv | hv := List.mem_append.mp hv
      · exact .inl hv
      · rw [List.mem_singleton.mp hv, hparent, hpu]
        exact .inr rfl
    · exact .inl hv
  · intro u q m hq hm hfalse hheld hdropped
    rw [isDropped_congr (holding?_adopt f p t q)] at hdropped
    have hopen : f.isOpen u = true := by
      refine isOpen_iff.mpr ⟨m, hm, ?_, ?_⟩
      · split at hfalse <;> exact hfalse
      · split at hheld <;> exact hheld
    obtain ⟨m, hm, hfalse, hchild⟩ | hwaits := h.linked u q hq hopen hdropped
    · refine .inl ⟨m, hm, ?_⟩
      split
      · exact ⟨hfalse, List.mem_append_left _ hchild⟩
      · exact ⟨hfalse, hchild⟩
    · obtain rfl | hwaits := List.mem_cons.mp hwaits
      · cases Option.some.inj (hparent.symm.trans hq)
        refine .inl ⟨n, hp, ?_⟩
        rw [if_pos rfl]
        exact ⟨hcancelled, List.mem_append_right _ (List.mem_singleton_self u)⟩
      · exact .inr hwaits

/-! ## Cancelling one token -/

/-- What becomes of the node of a token that is cancelled. -/
def closeNode (n : Node) : Node := { n.cleared with cancelled := true }

theorem close_eq (hn : f.node? t = some n) (hquiet : n.callbacks = []) :
    f.close t = (f.modify t closeNode, n.children.map .cancel) := by
  unfold close
  rw [hn]
  simp only [hquiet]
  rfl

theorem isCancelled_close (hn : f.node? t = some n) :
    (f.modify t closeNode).isCancelled u = true ↔ u = t ∨ f.isCancelled u = true := by
  by_cases hu : t = u
  · subst hu
    simp [isCancelled, node?_modify_self, hn, closeNode]
  · simp [isCancelled, node?_modify_of_ne hu, Ne.symm hu]

theorem holding?_close (f : Forest) (t u : Token) :
    (f.modify t closeNode).holding? u = f.holding? u := by
  rw [holding?_modify]
  exact fun _ => rfl

theorem Linked.close (h : f.Linked parent? (t :: waiting)) (hn : f.node? t = some n) :
    (f.modify t closeNode).Linked parent? (n.children ++ waiting) := by
  refine h.of_map (node?_modify_eq_map f t _) ?_ ?_ ?_
  · intro u m hm
    split
    · rfl
    · exact hm
  · intro u m v hv
    split at hv
    · cases hv
    · exact .inl hv
  · intro u p m hp hm hfalse hheld hdropped
    rw [isDropped_congr (holding?_close f t p)] at hdropped
    have hne : t ≠ u := by
      intro htu
      rw [if_pos htu] at hfalse
      cases hfalse
    rw [if_neg hne] at hfalse hheld
    obtain ⟨m', hm', hcancelled, hchild⟩ | hwaits :=
      h.linked u p hp (isOpen_iff.mpr ⟨m, hm, hfalse, hheld⟩) hdropped
    · by_cases htp : t = p
      · subst htp
        cases Option.some.inj (hn.symm.trans hm')
        exact .inr (List.mem_append_left _ hchild)
      · refine .inl ⟨m', hm', ?_⟩
        rw [if_neg htp]
        exact ⟨hcancelled, hchild⟩
    · exact .inr (List.mem_append_right _ ((List.mem_cons.mp hwaits).resolve_left (Ne.symm hne)))

/-! ## Cancelling all that wait -/

/-- What it is for the tokens that waited to have been cancelled, with all that follows. -/
structure Settled (parent? : Token → Option Token) (waiting : List Token) (f g : Forest) :
    Prop where
  linked : g.Linked parent? []
  size : g.nodes.length = f.nodes.length
  held : ∀ u, g.holding? u = f.holding? u
  closed : ∀ t ∈ waiting, g.isOpen t = false
  kept : ∀ u, f.isCancelled u = true → g.isCancelled u = true
  reached : ∀ u, g.isCancelled u = true → f.isCancelled u = true ∨
    ∃ t ∈ waiting, Line parent? (fun t => f.isDropped t = true) t u

theorem isOpen_eq_false_of_isCancelled (h : f.isCancelled t = true) : f.isOpen t = false := by
  obtain ⟨n, hn, hcancelled⟩ := isCancelled_iff.mp h
  simp [isOpen, hn, hcancelled]

theorem isOpen_eq_false_of_settled {g : Forest} (h : Settled parent? waiting f g)
    (hopen : f.isOpen t = false) : g.isOpen t = false := by
  by_cases hcancelled : f.isCancelled t = true
  · exact isOpen_eq_false_of_isCancelled (h.kept t hcancelled)
  · have hheld := h.held t
    cases hn : f.node? t with
    | none =>
      rw [holding?, holding?, hn] at hheld
      rw [isOpen, Option.map_eq_none_iff.mp hheld]
      rfl
    | some n =>
      have hdropped : n.dropped = true := by
        simp only [isOpen, isCancelled, hn, Option.any_some] at hopen hcancelled
        simpa [hcancelled] using hopen
      have hg : g.isDropped t = true := by
        rw [isDropped_congr hheld, isDropped_eq hn, hdropped]
      cases hm : g.node? t with
      | none => simp [isOpen, hm]
      | some m =>
        rw [isDropped_eq hm] at hg
        simp [isOpen, hm, hg]

theorem Settled.skip {g : Forest} (h : Settled parent? waiting f g) (ht : f.isOpen t = false) :
    Settled parent? (t :: waiting) f g := by
  refine ⟨h.linked, h.size, h.held, ?_, h.kept, ?_⟩
  · intro u hu
    obtain rfl | hu := List.mem_cons.mp hu
    · exact isOpen_eq_false_of_settled h ht
    · exact h.closed u hu
  · intro u hu
    obtain hu | ⟨v, hv, hvu⟩ := h.reached u hu
    · exact .inl hu
    · exact .inr ⟨v, List.mem_cons_of_mem _ hv, hvu⟩

theorem Settled.of_close {g : Forest} (hlinked : f.Linked parent? (t :: waiting))
    (hn : f.node? t = some n) (hdropped : n.dropped = false)
    (h : Settled parent? (n.children ++ waiting) (f.modify t closeNode) g) :
    Settled parent? (t :: waiting) f g := by
  have hline : Line parent? (fun t => f.isDropped t = true) t t :=
    .self (by simp [isDropped_eq hn, hdropped])
  have hgone : ∀ v, f.isDropped v = true → (f.modify t closeNode).isDropped v = true := by
    intro v hv
    rw [isDropped_congr (holding?_close f t v), hv]
  refine ⟨h.linked, ?_, ?_, ?_, ?_, ?_⟩
  · rw [h.size]
    exact List.length_modify ..
  · intro u
    rw [h.held, holding?_close]
  · intro u hu
    obtain rfl | hu := List.mem_cons.mp hu
    · exact isOpen_eq_false_of_isCancelled (h.kept u ((isCancelled_close hn).mpr (.inl rfl)))
    · exact h.closed u (List.mem_append_right _ hu)
  · intro u hu
    exact h.kept u ((isCancelled_close hn).mpr (.inr hu))
  · intro u hu
    obtain hu | ⟨v, hv, hvu⟩ := h.reached u hu
    · obtain rfl | hu := (isCancelled_close hn).mp hu
      · exact .inr ⟨u, List.mem_cons_self, hline⟩
      · exact .inl hu
    · have hvu' := hvu.mono (fun _ _ hp => hp) hgone
      obtain hv | hv := List.mem_append.mp hv
      · -- a child of the closed token: the line to it goes on
        have hchild : Line parent? (fun t => f.isDropped t = true) t v :=
          .child hline (hlinked.derived _ n hn v hv) hvu'.not_gone_left
        exact .inr ⟨t, List.mem_cons_self, hchild.trans hvu'⟩
      · exact .inr ⟨v, List.mem_cons_of_mem _ hv, hvu'⟩

theorem settled_run (h : f.Linked parent? waiting) :
    Settled parent? waiting f (f.run (waiting.map .cancel)).1 := by
  generalize htasks : waiting.map Task.cancel = tasks
  fun_induction run f tasks generalizing waiting with
  | case1 f =>
    obtain rfl := List.map_eq_nil_iff.mp htasks
    exact ⟨h, rfl, fun _ => rfl, fun _ ht => absurd ht List.not_mem_nil, fun _ hu => hu,
      fun _ hu => .inl hu⟩
  | case2 f t tasks hopen ih =>
    obtain ⟨t, rest, rfl, ⟨⟩, rfl⟩ := List.map_eq_cons_iff.mp htasks
    obtain ⟨n, hn, -, hdropped⟩ := isOpen_iff.mp hopen
    rw [close_eq hn (h.quiet _ n hn)] at ih ⊢
    exact .of_close h hn hdropped (ih (h.close hn) List.map_append)
  | case3 f t tasks hopen ih =>
    obtain ⟨t, rest, rfl, ⟨⟩, rfl⟩ := List.map_eq_cons_iff.mp htasks
    rw [Bool.not_eq_true] at hopen
    exact (ih (h.skip (.inl hopen)) rfl).skip hopen
  -- no task calls anything
  | case4 f c tasks g firings hrun ih =>
    obtain ⟨t, rest, -, ⟨⟩, -⟩ := List.map_eq_cons_iff.mp htasks
  | case5 f c tasks ih =>
    obtain ⟨t, rest, -, ⟨⟩, -⟩ := List.map_eq_cons_iff.mp htasks

theorem settled_cancel (h : f.Linked parent? []) (t : Token) :
    Settled parent? [t] f (f.cancel t).1 := by
  have hwaits : f.Linked parent? [t] :=
    ⟨h.quiet, h.made, h.derived, fun u p hp hu hdropped =>
      .inl ((h.linked u p hp hu hdropped).resolve_right List.not_mem_nil)⟩
  exact settled_run hwaits

theorem Linked.isCancelled_of_line (h : f.Linked parent? [])
    (hline : Line parent? (fun t => f.isDropped t = true) t u) (ht : f.isCancelled t = true) :
    f.isCancelled u = true := by
  induction hline with
  | self _ => exact ht
  | @child p u hline hp hu hcancelled =>
    obtain ⟨n, hn⟩ := h.made u p hp
    by_contra hopen
    have hdropped : n.dropped = false := by
      rw [isDropped_eq hn] at hu
      simpa using hu
    have hisOpen : f.isOpen u = true := by
      simp only [isCancelled, hn, Option.any_some, Bool.not_eq_true] at hopen
      exact isOpen_iff.mpr ⟨n, hn, hopen, hdropped⟩
    obtain ⟨m, hm, hfalse, -⟩ | hwaits :=
      h.linked u p hp hisOpen (by simpa using hline.not_gone)
    · simp [isCancelled, hm, hfalse] at hcancelled
    · cases hwaits

/-- **What a cancel reaches**: what was cancelled before, and every token that comes from the
cancelled one through none that is dropped. -/
theorem Linked.isCancelled_cancel_iff (h : f.Linked parent? []) (ht : ∃ n, f.node? t = some n) :
    (f.cancel t).1.isCancelled u = true ↔
      f.isCancelled u = true ∨ Line parent? (fun t => f.isDropped t = true) t u := by
  have hsettled := settled_cancel h t
  constructor
  · intro hu
    obtain hu | ⟨v, hv, hvu⟩ := hsettled.reached u hu
    · exact .inl hu
    · obtain rfl := List.mem_singleton.mp hv
      exact .inr hvu
  · rintro (hu | hline)
    · exact hsettled.kept u hu
    · have hgone : ∀ v, (f.cancel t).1.isDropped v = f.isDropped v := fun v =>
        isDropped_congr (hsettled.held v)
      obtain ⟨n, hn⟩ := ht
      have hheld := hsettled.held t
      rw [holding?, holding?, hn] at hheld
      obtain ⟨m, hm, -⟩ := Option.map_eq_some_iff.mp hheld
      have hcancelled : (f.cancel t).1.isCancelled t = true := by
        have hdropped := hline.not_gone_left
        have hclosed := hsettled.closed t (List.mem_singleton_self t)
        rw [← hgone t, isDropped_eq hm] at hdropped
        simp only [isOpen, isCancelled, hm, Option.any_some] at hclosed ⊢
        simpa [hdropped] using hclosed
      refine hsettled.linked.isCancelled_of_line (hline.mono (fun _ _ hp => hp) ?_) hcancelled
      intro v hv
      rwa [← hgone v]

end Forest
end AgentMemory.Cancel
