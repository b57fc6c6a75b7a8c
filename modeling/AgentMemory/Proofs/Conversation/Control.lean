import AgentMemory.Conversation.Execution
import AgentMemory.Proofs.Cancel.History

/-!
# Controlling an execution

What a control of an execution does to its tokens is said once: it makes at most one token, derived
from the root, and cancels at most one, which cancels nothing else unless it is the root. This holds
as long as the tokens are **rooted**: nobody has let go of any, and all but the root are derived
from the root.
-/

namespace AgentMemory

open Cancel (Forest Gone Held Line Made Orderly Reached Tells Token grown lineage parent?
  parent?_of_makes parent?_snoc tells_grown)

/-! ## Rooted tokens -/

def Cancel.Forest.Has (f : Forest) (t : Token) : Prop := t.index < f.nodes.length

/-- The tokens come of a history in which none was let go of, and every one but the root was derived
from the root. -/
structure Rooted (ops : List Cancel.Operation) (f : Forest) (root : Token) : Prop where
  orderly : Orderly ops
  grown : f = grown ops
  kept : ∀ t, .drop t ∉ ops
  made : Made ops root
  parent : ∀ t, Made ops t → parent? ops t = if t = root then none else some root

namespace Rooted

variable {ops : List Cancel.Operation} {f : Forest} {root a t : Token}

theorem tells (h : Rooted ops f root) : Tells ops f := h.grown ▸ tells_grown h.orderly

theorem has_iff (h : Rooted ops f root) : f.Has t ↔ Made ops t := by
  rw [Forest.Has, h.tells.size, Made]

theorem not_gone (h : Rooted ops f root) (t : Token) : ¬ Gone ops t := by
  rw [Gone, List.count_eq_zero_of_not_mem (h.kept t)]
  exact Nat.not_lt_zero _

theorem held (h : Rooted ops f root) (ht : Made ops t) : Held ops t := ⟨ht, h.not_gone t⟩

theorem line_iff (h : Rooted ops f root) (ht : Made ops t) :
    Line (parent? ops) (Gone ops) a t ↔ a = t ∨ a = root := by
  constructor
  · intro hline
    cases hline with
    | self _ => exact .inl rfl
    | @child p _ hline hp _ =>
      rw [h.parent t ht] at hp
      split at hp
      · cases hp
      · obtain rfl := Option.some.inj hp
        cases hline with
        | self _ => exact .inr rfl
        | child _ hroot _ =>
          rw [h.parent _ h.made, if_pos rfl] at hroot
          cases hroot
  · intro ha
    by_cases hself : a = t
    · exact hself ▸ .self (h.not_gone a)
    · obtain rfl := ha.resolve_left hself
      refine .child (.self (h.not_gone a)) ?_ (h.not_gone t)
      rw [h.parent t ht, if_neg (Ne.symm hself)]

theorem initial : Rooted [.fresh] Execution.initial.tokens Execution.initial.root where
  orderly := .snoc .nil nofun
  grown := rfl
  kept := by simp
  made := Nat.zero_lt_one
  parent t ht := by
    obtain ⟨i⟩ := t
    obtain rfl : i = 0 := Nat.lt_one_iff.mp ht
    rfl

/-! ### Cancelling a token -/

theorem cancel (h : Rooted ops f root) (ha : f.Has a) :
    Rooted (ops ++ [.cancel a]) (f.cancel a).1 root where
  orderly := h.orderly.snoc fun t ht => Option.some.inj ht ▸ h.held (h.has_iff.mp ha)
  grown := by
    rw [Cancel.grown_snoc, ← h.grown]
    rfl
  kept t := by simpa using h.kept t
  made := h.made.snoc _
  parent t ht := by
    rw [Made, Tells.lineage_eq rfl] at ht
    rw [Tells.parent?_eq rfl, h.parent t ht]

theorem has_cancel_iff (h : Rooted ops f root) (ha : f.Has a) :
    (f.cancel a).1.Has t ↔ f.Has t := by
  rw [(h.cancel ha).has_iff, h.has_iff, Made, Tells.lineage_eq rfl, Made]

theorem isCancelled_cancel_iff (h : Rooted ops f root) (ha : f.Has a) (ht : f.Has t) :
    (f.cancel a).1.isCancelled t = true ↔ f.isCancelled t = true ∨ a = t ∨ a = root := by
  rw [h.has_iff] at ha ht
  rw [(h.cancel (h.has_iff.mpr ha)).tells.cancelled t (ht.snoc _),
    h.orderly.reached_snoc_cancel_iff ht, h.tells.cancelled t ht, h.line_iff ht]

/-! ### Deriving a token -/

theorem child (h : Rooted ops f root) : Rooted (ops ++ [.child root]) (f.child root).1 root where
  orderly := h.orderly.snoc fun t ht => Option.some.inj ht ▸ h.held h.made
  grown := by
    rw [Cancel.grown_snoc, ← h.grown]
    rfl
  kept t := by simpa using h.kept t
  made := h.made.snoc _
  parent t ht := by
    obtain hmade | hnew := (Cancel.made_snoc_iff rfl).mp ht
    · rw [parent?_snoc hmade, h.parent t hmade]
    · have hne : t ≠ root := by
        rintro rfl
        exact Nat.ne_of_lt h.made hnew
      rw [parent?_of_makes rfl hnew, if_neg hne]

theorem index_child (h : Rooted ops f root) : (f.child root).2.index = (lineage ops).length := by
  rw [← h.tells.size, Forest.child]
  split <;> rfl

theorem not_has_child (h : Rooted ops f root) : ¬ f.Has (f.child root).2 := by
  rw [h.has_iff, Made, h.index_child]
  exact Nat.lt_irrefl _

theorem has_child_iff (h : Rooted ops f root) :
    (f.child root).1.Has t ↔ f.Has t ∨ t = (f.child root).2 := by
  rw [h.child.has_iff, Cancel.made_snoc_iff rfl, h.has_iff, ← h.index_child]
  exact or_congr_right ⟨fun hindex => congrArg Token.mk hindex, congrArg Token.index⟩

theorem isCancelled_child (h : Rooted ops f root) (ht : f.Has t) :
    (f.child root).1.isCancelled t = f.isCancelled t := by
  rw [h.has_iff] at ht
  rw [Bool.eq_iff_iff, h.child.tells.cancelled t (ht.snoc _),
    h.orderly.reached_snoc_other_iff (by simp) ht, h.tells.cancelled t ht]

theorem isCancelled_child_new (h : Rooted ops f root) :
    (f.child root).1.isCancelled (f.child root).2 = f.isCancelled root := by
  have hnew : Made (ops ++ [.child root]) (f.child root).2 :=
    h.child.has_iff.mp (h.has_child_iff.mpr (.inr rfl))
  have hheld : ∀ t, (Cancel.Operation.child root).handle? = some t → Held ops t :=
    fun t ht => Option.some.inj ht ▸ h.held h.made
  rw [Bool.eq_iff_iff, h.child.tells.cancelled _ hnew, h.tells.cancelled root h.made,
    h.orderly.reached_new_iff hheld rfl h.index_child]
  simp

end Rooted

/-! ## Controls -/

namespace Execution

theorem interrupt_eq (x : Execution) : x.interrupt =
    ({ x with
        status := .interrupted
        active := none
        tokens := x.active.elim x.tokens fun t => (x.tokens.cancel t).1 }, x.active.isSome) := by
  unfold interrupt
  cases x.active <;> rfl

/-- What can be asked of an execution. -/
inductive Control where
  | setStatus (s : ExecutionStatus)
  | beginCall
  | endCall
  | interrupt
  | stop
  | derive
  deriving DecidableEq

namespace Control

def perform (x : Execution) : Control → Execution
  | setStatus s => x.setStatus s
  | beginCall => x.beginCall.1
  | endCall => x.endCall
  | interrupt => x.interrupt.1
  | stop => x.stop
  | derive => x.derive.1

def handsOut? (x : Execution) : Control → Option Token
  | beginCall => some x.beginCall.2
  | derive => some x.derive.2
  | setStatus _ | endCall | interrupt | stop => none

def cancels? (x : Execution) : Control → Option Token
  | interrupt => x.active
  | stop => some x.root
  | setStatus _ | beginCall | endCall | derive => none

def sets? : Control → Option ExecutionStatus
  | setStatus s => some s
  | beginCall => some .running
  | interrupt => some .interrupted
  | stop => some .finished
  | endCall | derive => none

/-- Whether no model call is under way any more. -/
def endsCall : Control → Bool
  | endCall | interrupt | stop => true
  | setStatus _ | beginCall | derive => false

variable (k : Control) (x : Execution)

theorem root_perform : (k.perform x).root = x.root := by
  cases k with
  | interrupt => exact congrArg (·.1.root) x.interrupt_eq
  | setStatus | beginCall | endCall | stop | derive => rfl

theorem status_perform : (k.perform x).status = k.sets?.getD x.status := by
  cases k with
  | interrupt => exact congrArg (·.1.status) x.interrupt_eq
  | setStatus | beginCall | endCall | stop | derive => rfl

theorem active_perform : (k.perform x).active =
    if k = .beginCall then k.handsOut? x else if k.endsCall then none else x.active := by
  cases k with
  | interrupt => exact congrArg (·.1.active) x.interrupt_eq
  | setStatus | beginCall | endCall | stop | derive => rfl

end Control

/-- The tokens are rooted, and that of the model call under way is one of them. -/
structure Sound (x : Execution) : Prop where
  rooted : ∃ ops, Rooted ops x.tokens x.root
  active : ∀ t, x.active = some t → x.tokens.Has t ∧ t ≠ x.root

/-- What becomes of the tokens of an execution, by the token that is handed out and the one that is
cancelled. -/
inductive Effect (x : Execution) : Option Token → Option Token → Forest → Prop
  | same : Effect x none none x.tokens
  | makes : Effect x (some (x.tokens.child x.root).2) none (x.tokens.child x.root).1
  | cancels {a : Token} (ha : x.tokens.Has a) : Effect x none (some a) (x.tokens.cancel a).1

variable {x : Execution} {made? gone? : Option Token} {f : Forest} {t : Token}

namespace Sound

theorem initial : Sound .initial := ⟨⟨_, Rooted.initial⟩, nofun⟩

theorem has_root (h : x.Sound) : x.tokens.Has x.root := by
  obtain ⟨ops, hrooted⟩ := h.rooted
  exact hrooted.has_iff.mpr hrooted.made

/-- Every control has one of the effects. -/
theorem effect (h : x.Sound) (k : Control) :
    x.Effect (k.handsOut? x) (k.cancels? x) (k.perform x).tokens := by
  cases k with
  | setStatus | endCall => exact .same
  | beginCall | derive => exact .makes
  | stop => exact .cancels h.has_root
  | interrupt =>
    show x.Effect none x.active (x.interrupt.1).tokens
    rw [x.interrupt_eq]
    cases hactive : x.active with
    | none => exact .same
    | some a => exact .cancels (h.active a hactive).1

end Sound

namespace Effect

theorem rooted (h : x.Effect made? gone? f) (hx : x.Sound) : ∃ ops, Rooted ops f x.root := by
  obtain ⟨ops, hrooted⟩ := hx.rooted
  cases h with
  | same => exact ⟨ops, hrooted⟩
  | makes => exact ⟨_, hrooted.child⟩
  | cancels ha => exact ⟨_, hrooted.cancel ha⟩

theorem has_iff (h : x.Effect made? gone? f) (hx : x.Sound) :
    f.Has t ↔ x.tokens.Has t ∨ made? = some t := by
  obtain ⟨ops, hrooted⟩ := hx.rooted
  cases h with
  | same => simp
  | makes => rw [hrooted.has_child_iff, Option.some.injEq, eq_comm (a := t)]
  | cancels ha => simp [hrooted.has_cancel_iff ha]

theorem isCancelled_iff (h : x.Effect made? gone? f) (hx : x.Sound) (ht : x.tokens.Has t) :
    f.isCancelled t = true ↔
      x.tokens.isCancelled t = true ∨ gone? = some t ∨ gone? = some x.root := by
  obtain ⟨ops, hrooted⟩ := hx.rooted
  cases h with
  | same => simp
  | makes => simp [hrooted.isCancelled_child ht]
  | cancels ha => simp [hrooted.isCancelled_cancel_iff ha ht]

theorem isCancelled_new (h : x.Effect (some t) gone? f) (hx : x.Sound) :
    f.isCancelled t = x.tokens.isCancelled x.root := by
  obtain ⟨ops, hrooted⟩ := hx.rooted
  cases h with
  | makes => exact hrooted.isCancelled_child_new

theorem not_has (h : x.Effect (some t) gone? f) (hx : x.Sound) : ¬ x.tokens.Has t := by
  obtain ⟨ops, hrooted⟩ := hx.rooted
  cases h with
  | makes => exact hrooted.not_has_child

end Effect

theorem Sound.effect_of_handsOut (h : x.Sound) {k : Control} (ht : k.handsOut? x = some t) :
    x.Effect (some t) (k.cancels? x) (k.perform x).tokens := ht ▸ h.effect k

theorem Sound.perform (h : x.Sound) (k : Control) : (k.perform x).Sound := by
  refine ⟨?_, ?_⟩
  · rw [k.root_perform]
    exact (h.effect k).rooted h
  · intro t ht
    rw [k.root_perform, (h.effect k).has_iff h]
    rw [k.active_perform] at ht
    split at ht
    · refine ⟨.inr ht, ?_⟩
      rintro rfl
      exact (h.effect_of_handsOut ht).not_has h h.has_root
    · split at ht
      · cases ht
      · exact (h.active t ht).imp_left .inl

end Execution
end AgentMemory
