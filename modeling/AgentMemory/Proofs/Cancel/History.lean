import AgentMemory.Proofs.Cancel.Closure

/-!
# Histories of tokens

A history is a sequence of operations, each on tokens that something holds at that moment. It says
by itself which tokens there are, which one each was derived from, and which are gone. The main
statement is that it also says which are cancelled: those that come from one on which a cancel was
called, if at that moment no token in between was gone.

So a token that outlives the one it was derived from is cut off from all that come before. A cancel
does not reach it, unless it had been reached before.
-/

namespace AgentMemory.Cancel

/-! ## Operations -/

/-- What can be done with tokens on which nothing is to be called. -/
inductive Operation where
  | fresh
  | child (parent : Token)
  | clone (t : Token)
  | drop (t : Token)
  | cancel (t : Token)
  deriving DecidableEq

namespace Operation

/-- The token that a handle is needed to. -/
def handle? : Operation → Option Token
  | fresh => none
  | child t | clone t | drop t | cancel t => some t

/-- What a new token is derived from, if the operation makes one. -/
def makes? : Operation → Option (Option Token)
  | fresh => some none
  | child p => some (some p)
  | clone _ | drop _ | cancel _ => none

def perform (f : Forest) : Operation → Forest
  | fresh => f.fresh.1
  | child p => (f.child p).1
  | clone t => f.clone t
  | drop t => f.drop t
  | cancel t => (f.cancel t).1

theorem handle?_of_makes? {o : Operation} {p : Token} (h : o.makes? = some (some p)) :
    o.handle? = some p := by
  cases o with
  | child q => exact Option.some.inj h
  | fresh | clone | drop | cancel => cases h

end Operation

/-! ## What a history tells -/

/-- What each token was derived from, in the order in which they were made. -/
def lineage (ops : List Operation) : List (Option Token) := ops.filterMap Operation.makes?

def parent? (ops : List Operation) (t : Token) : Option Token := (lineage ops)[t.index]?.join

def Made (ops : List Operation) (t : Token) : Prop := t.index < (lineage ops).length

/-- All handles to a token have been let go: the one it was made with and every other one. -/
def Gone (ops : List Operation) (t : Token) : Prop := ops.count (.clone t) < ops.count (.drop t)

def Held (ops : List Operation) (t : Token) : Prop := Made ops t ∧ ¬ Gone ops t

instance (ops : List Operation) (t : Token) : Decidable (Gone ops t) :=
  inferInstanceAs (Decidable (_ < _))

instance (ops : List Operation) (t : Token) : Decidable (Held ops t) :=
  inferInstanceAs (Decidable (_ < _ ∧ ¬ Gone ops t))

/-- Every operation has a handle to the token it is about. -/
inductive Orderly : List Operation → Prop
  | nil : Orderly []
  | snoc {ops : List Operation} {o : Operation} (h : Orderly ops)
      (ho : ∀ t, o.handle? = some t → Held ops t) : Orderly (ops ++ [o])

def grown (ops : List Operation) : Forest := ops.foldl Operation.perform {}

/-- A cancel was called on a token that this one comes from, or on this one itself, and at that
moment none from the one to the other was gone. -/
def Reached (ops : List Operation) (t : Token) : Prop :=
  ∃ before a after, ops = before ++ .cancel a :: after ∧ Line (parent? ops) (Gone before) a t

section

variable {ops before : List Operation} {o : Operation} {a p t : Token} {source : Option Token}

/-! ## One operation more -/

theorem grown_snoc (ops : List Operation) (o : Operation) :
    grown (ops ++ [o]) = o.perform (grown ops) := by
  rw [grown, List.foldl_append]
  rfl

theorem lineage_snoc (ops : List Operation) (o : Operation) :
    lineage (ops ++ [o]) = lineage ops ++ o.makes?.toList := by
  rw [lineage, List.filterMap_append, ← lineage]
  cases ho : o.makes? <;> simp [ho]

theorem Made.snoc (h : Made ops t) (o : Operation) : Made (ops ++ [o]) t := by
  have : t.index < (lineage ops).length := h
  rw [Made, lineage_snoc, List.length_append]
  omega

theorem made_of_parent? (h : parent? ops t = some p) : Made ops t := by
  by_contra hmade
  rw [parent?, List.getElem?_eq_none (Nat.le_of_not_lt hmade)] at h
  cases h

theorem parent?_snoc (h : Made ops t) (o : Operation) :
    parent? (ops ++ [o]) t = parent? ops t := by
  rw [parent?, lineage_snoc, List.getElem?_append_left h, ← parent?]

theorem parent?_of_makes (ho : o.makes? = some source) (ht : t.index = (lineage ops).length) :
    parent? (ops ++ [o]) t = source := by
  rw [parent?, lineage_snoc, ht, ho]
  simp

theorem parent?_of_ne (o : Operation) (ht : t.index ≠ (lineage ops).length) :
    parent? (ops ++ [o]) t = parent? ops t := by
  by_cases hmade : Made ops t
  · exact parent?_snoc hmade o
  · have hlt : (lineage ops).length < t.index := by
      rw [Made] at hmade
      omega
    have hnone : ∀ l : List (Option Token), l.length ≤ t.index → l[t.index]?.join = none := by
      intro l hl
      rw [List.getElem?_eq_none hl]
      rfl
    rw [parent?, parent?, hnone _ (Nat.le_of_lt hlt), hnone]
    cases hmakes : o.makes? <;> simp [lineage_snoc, hmakes] <;> omega

theorem made_snoc_iff (ho : o.makes? = some source) :
    Made (ops ++ [o]) t ↔ Made ops t ∨ t.index = (lineage ops).length := by
  simp only [Made, lineage_snoc, ho, List.length_append, Option.toList_some, List.length_singleton]
  omega

theorem parent?_mono (h : parent? ops t = some p) (o : Operation) :
    parent? (ops ++ [o]) t = some p := by
  rw [parent?_snoc (made_of_parent? h), h]

namespace Orderly

theorem made_of_mem (h : Orderly ops) (ho : o ∈ ops) (ht : o.handle? = some t) : Made ops t := by
  induction h with
  | nil => cases ho
  | snoc h hheld ih =>
    obtain ho | ho := List.mem_append.mp ho
    · exact (ih ho).snoc _
    · obtain rfl := List.mem_singleton.mp ho
      exact (hheld t ht).1.snoc _

theorem made_parent (h : Orderly ops) (hp : parent? ops t = some p) : Made ops p := by
  induction h with
  | nil => cases hp
  | @snoc ops o h hheld ih =>
    by_cases ht : Made ops t
    · rw [parent?_snoc ht] at hp
      exact (ih hp).snoc _
    · cases hmakes : o.makes? with
      | none =>
        have hmade := made_of_parent? hp
        rw [Made, lineage_snoc, hmakes] at hmade
        simp only [Option.toList_none, List.append_nil] at hmade
        exact absurd hmade ht
      | some source =>
        have hindex := ((made_snoc_iff hmakes).mp (made_of_parent? hp)).resolve_left ht
        rw [parent?_of_makes hmakes hindex] at hp
        subst hp
        exact (hheld p (Operation.handle?_of_makes? hmakes)).1.snoc _

/-- A line that ends at a token made earlier does not depend on what came later. -/
theorem line_snoc_iff (h : Orderly ops) (o : Operation) {Lost : Token → Prop} (ht : Made ops t) :
    Line (parent? (ops ++ [o])) Lost a t ↔ Line (parent? ops) Lost a t := by
  constructor
  · intro hline
    induction hline with
    | self ha => exact .self ha
    | child _ hp hlost ih =>
      rw [parent?_snoc ht] at hp
      exact .child (ih (h.made_parent hp)) hp hlost
  · intro hline
    exact hline.mono (fun _ _ hp => parent?_mono hp o) fun _ hlost => hlost

theorem not_gone_of_not_made (h : Orderly ops) (hbefore : before <+: ops) (ht : ¬ Made ops t) :
    ¬ Gone before t := by
  have hnot : Operation.drop t ∉ before := fun hmem => ht (h.made_of_mem (hbefore.subset hmem) rfl)
  rw [Gone, List.count_eq_zero_of_not_mem hnot]
  exact Nat.not_lt_zero _

theorem count_eq_zero (h : Orderly ops) (ht : ¬ Made ops t) :
    ops.count (.clone t) = 0 ∧ ops.count (.drop t) = 0 :=
  ⟨List.count_eq_zero_of_not_mem fun hmem => ht (h.made_of_mem hmem rfl),
    List.count_eq_zero_of_not_mem fun hmem => ht (h.made_of_mem hmem rfl)⟩

end Orderly

/-! ## What is reached after one operation more -/

theorem reached_snoc_iff : Reached (ops ++ [o]) t ↔
    (∃ before a after, ops = before ++ .cancel a :: after ∧
      Line (parent? (ops ++ [o])) (Gone before) a t) ∨
    ∃ a, o = .cancel a ∧ Line (parent? (ops ++ [o])) (Gone ops) a t := by
  constructor
  · rintro ⟨before, a, after, heq, hline⟩
    obtain rfl | ⟨init, last, rfl⟩ := List.eq_nil_or_concat after
    · obtain ⟨rfl, hlast⟩ := List.append_inj' heq rfl
      exact .inr ⟨a, List.singleton_injective hlast, hline⟩
    · rw [List.concat_eq_append, ← List.cons_append, ← List.append_assoc] at heq
      obtain ⟨rfl, -⟩ := List.append_inj' heq rfl
      exact .inl ⟨before, a, init, rfl, hline⟩
  · rintro (⟨before, a, after, rfl, hline⟩ | ⟨a, rfl, hline⟩)
    · exact ⟨before, a, after ++ [o], by simp, hline⟩
    · exact ⟨ops, a, [], rfl, hline⟩

theorem Orderly.reached_snoc_cancel_iff (h : Orderly ops) (ht : Made ops t) :
    Reached (ops ++ [.cancel a]) t ↔ Reached ops t ∨ Line (parent? ops) (Gone ops) a t := by
  simp only [reached_snoc_iff, h.line_snoc_iff _ ht, Operation.cancel.injEq, exists_eq_left']
  rfl

theorem Orderly.reached_snoc_other_iff (h : Orderly ops) (ho : ∀ a, o ≠ .cancel a)
    (ht : Made ops t) : Reached (ops ++ [o]) t ↔ Reached ops t := by
  simp only [reached_snoc_iff, h.line_snoc_iff _ ht, ho, false_and, exists_false, or_false]
  rfl

theorem Orderly.reached_new_iff (h : Orderly ops) (hheld : ∀ t, o.handle? = some t → Held ops t)
    (ho : o.makes? = some source) (ht : t.index = (lineage ops).length) :
    Reached (ops ++ [o]) t ↔ ∃ p, source = some p ∧ Reached ops p := by
  have hnew : ¬ Made ops t := by
    rw [Made]
    omega
  have hparent : parent? (ops ++ [o]) t = source := parent?_of_makes ho ht
  rw [reached_snoc_iff]
  constructor
  · rintro (⟨before, a, after, hops, hline⟩ | ⟨a, rfl, -⟩)
    · cases hline with
      | self _ =>
        have hmem : Operation.cancel t ∈ ops := by simp [hops]
        exact absurd (h.made_of_mem hmem rfl) hnew
      | @child p _ hline hp _ =>
        have hsource : source = some p := by rw [← hparent, hp]
        subst hsource
        have hmade := (hheld p (Operation.handle?_of_makes? ho)).1
        exact ⟨p, rfl, before, a, after, hops, (h.line_snoc_iff o hmade).mp hline⟩
    · cases ho
  · rintro ⟨p, rfl, before, a, after, hops, hline⟩
    have hbefore : before <+: ops := hops ▸ List.prefix_append _ _
    refine .inl ⟨before, a, after, hops, .child ?_ hparent (h.not_gone_of_not_made hbefore hnew)⟩
    exact hline.mono (fun _ _ hp => parent?_mono hp o) fun _ hgone => hgone

/-! ## Forests of histories -/

/-- What a history tells of the node of a token. -/
structure TellsNode (ops : List Operation) (t : Token) (n : Node) : Prop where
  handles : n.handles = 1 + ops.count (.clone t) - ops.count (.drop t)
  dropped : n.dropped = true ↔ Gone ops t

/-- What a history tells of a forest. -/
structure Tells (ops : List Operation) (f : Forest) : Prop where
  size : f.nodes.length = (lineage ops).length
  node : ∀ t n, f.node? t = some n → TellsNode ops t n
  linked : f.Linked (parent? ops) []
  cancelled : ∀ t, Made ops t → (f.isCancelled t = true ↔ Reached ops t)

theorem TellsNode.snoc {n m : Node} (h : TellsNode ops t n) (hclone : o ≠ .clone t)
    (hdrop : o ≠ .drop t) (hhandles : m.handles = n.handles) (hdropped : m.dropped = n.dropped) :
    TellsNode (ops ++ [o]) t m := by
  have hclones : (ops ++ [o]).count (.clone t) = ops.count (.clone t) := by
    rw [List.count_append, List.count_singleton, if_neg (by simpa using hclone), Nat.add_zero]
  have hdrops : (ops ++ [o]).count (.drop t) = ops.count (.drop t) := by
    rw [List.count_append, List.count_singleton, if_neg (by simpa using hdrop), Nat.add_zero]
  refine ⟨?_, ?_⟩
  · rw [hclones, hdrops, hhandles, h.handles]
  · rw [Gone, hclones, hdrops, hdropped, h.dropped, Gone]

namespace Tells

variable {f g : Forest} {n : Node}

theorem exists_node (h : Tells ops f) (ht : Made ops t) : ∃ n, f.node? t = some n := by
  rw [Made, ← h.size] at ht
  exact ⟨_, List.getElem?_eq_getElem ht⟩

theorem made (h : Tells ops f) (hn : f.node? t = some n) : Made ops t := by
  rw [Made, ← h.size]
  exact Forest.node?_lt hn

theorem isDropped_iff (h : Tells ops f) (hops : Orderly ops) (t : Token) :
    f.isDropped t = true ↔ Gone ops t := by
  cases hn : f.node? t with
  | some n => rw [Forest.isDropped_eq hn, (h.node t n hn).dropped]
  | none =>
    have ht : ¬ Made ops t := by
      intro ht
      obtain ⟨n, hn'⟩ := h.exists_node ht
      rw [hn] at hn'
      cases hn'
    simp [Forest.isDropped, Forest.holding?, hn, hops.not_gone_of_not_made List.prefix_rfl ht]

theorem nil : Tells [] {} := by
  refine ⟨rfl, ?_, ⟨?_, ?_, ?_, ?_⟩, ?_⟩
  · exact fun t n hn => by simp [Forest.node?] at hn
  · exact fun t n hn => by simp [Forest.node?] at hn
  · exact fun t p hp => absurd hp (by simp [parent?, lineage])
  · exact fun t n hn => by simp [Forest.node?] at hn
  · exact fun t p hp => absurd hp (by simp [parent?, lineage])
  · exact fun t ht => absurd ht (Nat.not_lt_zero _)

theorem exists_of_holding? {m : Node} (hsame : g.holding? t = f.holding? t)
    (hm : g.node? t = some m) :
    ∃ n, f.node? t = some n ∧ m.handles = n.handles ∧ m.dropped = n.dropped := by
  rw [Forest.holding?, hm] at hsame
  obtain ⟨n, hn, heq⟩ := Option.map_eq_some_iff.mp hsame.symm
  obtain ⟨hhandles, hdropped⟩ := Prod.mk.inj heq
  exact ⟨n, hn, hhandles.symm, hdropped.symm⟩

/-! ### Operations that make no token -/

theorem lineage_eq (ho : o.makes? = none) : lineage (ops ++ [o]) = lineage ops := by
  rw [lineage_snoc, ho]
  simp

theorem parent?_eq (ho : o.makes? = none) : parent? (ops ++ [o]) = parent? ops := by
  funext t
  rw [parent?, lineage_eq ho, ← parent?]

theorem keep (h : Tells ops f) (ho : o.makes? = none)
    (hsize : g.nodes.length = f.nodes.length)
    (hnode : ∀ t m, g.node? t = some m → TellsNode (ops ++ [o]) t m)
    (hlinked : g.Linked (parent? ops) [])
    (hcancelled : ∀ t, Made ops t → (g.isCancelled t = true ↔ Reached (ops ++ [o]) t)) :
    Tells (ops ++ [o]) g := by
  refine ⟨?_, hnode, ?_, ?_⟩
  · rw [lineage_eq ho, ← h.size, hsize]
  · rwa [parent?_eq ho]
  · intro t ht
    rw [Made, lineage_eq ho] at ht
    exact hcancelled t ht

theorem clone (h : Tells ops f) (hops : Orderly ops) (ha : Held ops a) :
    Tells (ops ++ [.clone a]) (f.clone a) := by
  have hnode : ∀ t, (f.clone a).node? t =
      if a = t then (f.node? t).map fun n => { n with handles := n.handles + 1 }
      else f.node? t := fun t => Forest.node?_modify
  refine h.keep rfl (List.length_modify ..) ?_ (h.linked.modify_handles a (· + 1)) ?_
  · intro t m hm
    rw [hnode] at hm
    split at hm
    · next hat =>
      subst hat
      obtain ⟨n, hn, rfl⟩ := Option.map_eq_some_iff.mp hm
      obtain ⟨hhandles, hdropped⟩ := h.node a n hn
      have hgone : ops.count (.drop a) ≤ ops.count (.clone a) := Nat.le_of_not_lt ha.2
      refine ⟨?_, ?_⟩
      · show n.handles + 1 = _
        simp only [List.count_append, List.count_singleton, hhandles]
        simp
        omega
      · show n.dropped = true ↔ _
        rw [hdropped, iff_false_left ha.2, Gone]
        simp only [List.count_append, List.count_singleton]
        simp
        omega
    · next hat => exact (h.node t m hm).snoc (by simpa using hat) nofun rfl rfl
  · intro t ht
    rw [hops.reached_snoc_other_iff (by simp) ht, ← h.cancelled t ht, Forest.isCancelled, hnode]
    split
    · rw [Option.any_map]
      rfl
    · rfl

theorem drop (h : Tells ops f) (hops : Orderly ops) (ha : Held ops a) :
    Tells (ops ++ [.drop a]) (f.drop a) := by
  have hnode := Forest.node?_drop h.linked.quiet a
  refine h.keep rfl (Forest.length_drop f a) ?_ (h.linked.drop a) ?_
  · intro t m hm
    rw [hnode] at hm
    obtain ⟨n, hn, rfl⟩ := Option.map_eq_some_iff.mp hm
    obtain ⟨hhandles, hdropped⟩ := h.node t n hn
    split
    · next hat =>
      subst hat
      have hgone : ops.count (.drop a) ≤ ops.count (.clone a) := Nat.le_of_not_lt ha.2
      have hkept : n.dropped = false := Bool.eq_false_iff.mpr fun hd => ha.2 (hdropped.mp hd)
      refine ⟨?_, ?_⟩
      · rw [Forest.settleNode_handles]
        show n.handles - 1 = _
        simp only [List.count_append, List.count_singleton, hhandles]
        simp
        omega
      · rw [Forest.settleNode_dropped_iff]
        show n.handles - 1 = 0 ∨ n.dropped = true ↔ _
        simp only [Gone, List.count_append, List.count_singleton, hhandles, hkept]
        simp
        omega
    · next hat =>
      refine (h.node t n hn).snoc nofun (by simpa using hat) Forest.settleNode_handles ?_
      rw [Bool.eq_iff_iff, Forest.settleNode_dropped_iff, hdropped, or_iff_right_iff_imp, hhandles,
        Gone]
      omega
  · intro t ht
    rw [hops.reached_snoc_other_iff (by simp) ht, ← h.cancelled t ht,
      Forest.isCancelled_drop h.linked.quiet]

theorem cancel (h : Tells ops f) (hops : Orderly ops) (ha : Held ops a) :
    Tells (ops ++ [.cancel a]) (f.cancel a).1 := by
  have hsettled := Forest.settled_cancel h.linked a
  refine h.keep rfl hsettled.size ?_ hsettled.linked ?_
  · intro t m hm
    obtain ⟨n, hn, hhandles, hdropped⟩ := exists_of_holding? (hsettled.held t) hm
    exact (h.node t n hn).snoc nofun nofun hhandles hdropped
  · intro t ht
    -- the forest and the history agree on what is gone
    have hdropped : (fun t => f.isDropped t = true) = Gone ops :=
      funext fun t => propext (h.isDropped_iff hops t)
    rw [h.linked.isCancelled_cancel_iff (h.exists_node ha.1), hops.reached_snoc_cancel_iff ht,
      h.cancelled t ht, hdropped]

/-! ### Operations that make a token -/

theorem make (h : Tells ops f) (hops : Orderly ops)
    (hheld : ∀ t, o.handle? = some t → Held ops t) (ho : o.makes? = some source)
    (hsize : g.nodes.length = f.nodes.length + 1)
    (hold : ∀ t, t.index ≠ f.nodes.length →
      g.holding? t = f.holding? t ∧ g.isCancelled t = f.isCancelled t)
    (hnew : ∀ t, t.index = f.nodes.length → g.holding? t = some (1, false) ∧
      (g.isCancelled t = true ↔ ∃ p, source = some p ∧ f.isCancelled p = true))
    (hlinked : g.Linked (parent? (ops ++ [o])) []) : Tells (ops ++ [o]) g := by
  have hother : ∀ o' : Operation, o'.makes? = none → o ≠ o' := by
    rintro o' hnone rfl
    rw [ho] at hnone
    cases hnone
  refine ⟨?_, ?_, hlinked, ?_⟩
  · rw [lineage_snoc, ho, hsize, h.size]
    simp
  · intro t m hm
    by_cases ht : t.index = f.nodes.length
    · have hmade : ¬ Made ops t := by
        rw [Made, ← h.size]
        omega
      obtain ⟨hclones, hdrops⟩ := hops.count_eq_zero hmade
      have hholding := (hnew t ht).1
      rw [Forest.holding?, hm] at hholding
      obtain ⟨hhandles, hdropped⟩ := Prod.mk.inj (Option.some.inj hholding)
      have hfresh : TellsNode ops t m := by
        refine ⟨?_, ?_⟩
        · rw [hhandles, hclones, hdrops]
        · rw [hdropped, Gone, hclones, hdrops]
          simp
      exact hfresh.snoc (hother _ rfl) (hother _ rfl) rfl rfl
    · obtain ⟨n, hn, hhandles, hdropped⟩ := exists_of_holding? (hold t ht).1 hm
      exact (h.node t n hn).snoc (hother _ rfl) (hother _ rfl) hhandles hdropped
  · intro t ht
    by_cases hmade : Made ops t
    · have hne : t.index ≠ f.nodes.length := by
        rw [Made, ← h.size] at hmade
        omega
      rw [(hold t hne).2, h.cancelled t hmade]
      exact (hops.reached_snoc_other_iff (fun a => hother _ rfl) hmade).symm
    · have hindex := ((made_snoc_iff ho).mp ht).resolve_left hmade
      rw [(hnew t (by rw [h.size, hindex])).2, hops.reached_new_iff hheld ho hindex]
      refine exists_congr fun p => and_congr_right fun hp => ?_
      subst hp
      exact h.cancelled p (hheld p (Operation.handle?_of_makes? ho)).1

theorem make_add (h : Tells ops f) (hops : Orderly ops)
    (hheld : ∀ t, o.handle? = some t → Held ops t) (ho : o.makes? = some source) (cancelled : Bool)
    (hcancelled : cancelled = true ↔ ∃ p, source = some p ∧ f.isCancelled p = true)
    (hsize : g.nodes.length = f.nodes.length + 1)
    (hsame : ∀ t, g.holding? t = (f.add { cancelled }).1.holding? t ∧
      g.isCancelled t = (f.add { cancelled }).1.isCancelled t)
    (hlinked : g.Linked (parent? (ops ++ [o])) []) : Tells (ops ++ [o]) g := by
  refine h.make hops hheld ho hsize ?_ ?_ hlinked
  · intro t ht
    have hnode : (f.add { cancelled }).1.node? t = f.node? t := by
      rw [Forest.node?_add, if_neg ht]
    rw [(hsame t).1, (hsame t).2, Forest.holding?, Forest.isCancelled, hnode]
    exact ⟨rfl, rfl⟩
  · intro t ht
    have hnode : (f.add { cancelled }).1.node? t = some { cancelled } := by
      rw [Forest.node?_add, if_pos ht]
    rw [(hsame t).1, (hsame t).2, Forest.holding?, Forest.isCancelled, hnode]
    exact ⟨rfl, by simpa using hcancelled⟩

theorem linked_add (h : Tells ops f) (o : Operation) (cancelled : Bool) :
    (f.add { cancelled }).1.Linked (parent? (ops ++ [o])) [⟨f.nodes.length⟩] :=
  h.linked.add rfl rfl fun _ hu => parent?_of_ne o (h.size ▸ hu)

theorem fresh (h : Tells ops f) (hops : Orderly ops) : Tells (ops ++ [.fresh]) f.fresh.1 := by
  refine h.make_add hops nofun rfl false (by simp) (List.length_append ..)
    (fun t => ⟨rfl, rfl⟩) ?_
  exact (h.linked_add .fresh false).skip (.inr (parent?_of_makes rfl h.size))

theorem child (h : Tells ops f) (hops : Orderly ops) (hp : Held ops p) :
    Tells (ops ++ [.child p]) (f.child p).1 := by
  have hheld : ∀ t, (Operation.child p).handle? = some t → Held ops t := by
    rintro t ⟨⟩
    exact hp
  obtain ⟨n, hn⟩ := h.exists_node hp.1
  unfold Forest.child
  split
  · next hcancelled =>
    refine h.make_add hops hheld rfl true (by simpa using hcancelled)
      (List.length_append ..) (fun t => ⟨rfl, rfl⟩) ?_
    refine (h.linked_add (.child p) true).skip (.inl ?_)
    apply Forest.isOpen_eq_false_of_isCancelled
    rw [Forest.isCancelled, Forest.node?_add, if_pos rfl]
    rfl
  · next hcancelled =>
    have hnode : (f.add {}).1.node? p = some n := by
      rw [Forest.node?_add, if_neg (Nat.ne_of_lt (Forest.node?_lt hn)), hn]
    have hopen : n.cancelled = false := by simpa [Forest.isCancelled, hn] using hcancelled
    refine h.make_add hops hheld rfl false (by simpa using hcancelled) ?_
      (fun t => ⟨Forest.holding?_adopt _ p _ t, Forest.isCancelled_adopt _ p _ t⟩) ?_
    · exact (List.length_modify ..).trans (List.length_append ..)
    · exact (h.linked_add (.child p) false).adopt hnode hopen (parent?_of_makes rfl h.size)

end Tells

theorem tells_grown (h : Orderly ops) : Tells ops (grown ops) := by
  induction h with
  | nil => exact .nil
  | @snoc ops o h hheld ih =>
    rw [grown_snoc]
    cases o with
    | fresh => exact ih.fresh h
    | child p => exact ih.child h (hheld p rfl)
    | clone a => exact ih.clone h (hheld a rfl)
    | drop a => exact ih.drop h (hheld a rfl)
    | cancel a => exact ih.cancel h (hheld a rfl)

/-! ## What is cancelled -/

/-- **What a history cancels**: the tokens that come from one on which a cancel was called, if at
that moment none in between was gone, whether they were there already or were derived later. -/
theorem isCancelled_grown_iff (h : Orderly ops) (t : Token) :
    (grown ops).isCancelled t = true ↔
      ∃ before a after, ops = before ++ .cancel a :: after ∧
        Line (parent? ops) (Gone before) a t := by
  by_cases ht : Made ops t
  · exact (tells_grown h).cancelled t ht
  · constructor
    · intro hcancelled
      obtain ⟨n, hn, -⟩ := Forest.isCancelled_iff.mp hcancelled
      exact absurd ((tells_grown h).made hn) ht
    · rintro ⟨before, a, after, hops, hline⟩
      cases hline with
      | self _ =>
        have hmem : Operation.cancel t ∈ ops := by simp [hops]
        exact absurd (h.made_of_mem hmem rfl) ht
      | child _ hp _ => exact absurd (made_of_parent? hp) ht

end

namespace Sample

/-- The token in the middle is held by a second handle until after the cancel; the last token is
derived when the one before it has been cancelled. -/
def clonedMiddle : List Operation :=
  [.fresh, .child ⟨0⟩, .clone ⟨1⟩, .drop ⟨1⟩, .child ⟨1⟩, .cancel ⟨0⟩, .drop ⟨1⟩, .child ⟨2⟩]

/-- The token in the middle is let go before the cancel. -/
def droppedMiddle : List Operation := [.fresh, .child ⟨0⟩, .child ⟨1⟩, .drop ⟨1⟩, .cancel ⟨0⟩]

end Sample

open Cancel.Sample

theorem isCancelled_grown_iff_clonedMiddle :
    Orderly clonedMiddle ∧ (grown clonedMiddle).isCancelled ⟨3⟩ = true := by
  have hops : Orderly clonedMiddle := by
    refine .snoc (.snoc (.snoc (.snoc (.snoc (.snoc (.snoc (.snoc .nil ?_) ?_) ?_) ?_) ?_) ?_)
      ?_) ?_
    all_goals
      intro t ht
      cases ht <;> decide
  refine ⟨hops, (isCancelled_grown_iff hops ⟨3⟩).mpr
    ⟨clonedMiddle.take 5, ⟨0⟩, clonedMiddle.drop 6, rfl, ?_⟩⟩
  have hfirst : Line (parent? clonedMiddle) (Gone (clonedMiddle.take 5)) ⟨0⟩ ⟨1⟩ :=
    .child (.self (by decide)) rfl (by decide)
  exact .child (.child hfirst rfl (by decide)) rfl (by decide)

/-- A token that outlives the one it was derived from is not reached from further up any more. -/
theorem not_cancelled_of_dropped_between :
    Orderly droppedMiddle ∧ Line (parent? droppedMiddle) (fun _ => False) ⟨0⟩ ⟨2⟩ ∧
      Held droppedMiddle ⟨2⟩ ∧ (grown droppedMiddle).isCancelled ⟨2⟩ = false := by
  refine ⟨?_, ?_, by decide, ?_⟩
  · refine .snoc (.snoc (.snoc (.snoc (.snoc .nil ?_) ?_) ?_) ?_) ?_
    all_goals
      intro t ht
      cases ht <;> decide
  · exact .child (.child (.self id) rfl id) rfl id
  · decide +kernel

end AgentMemory.Cancel
