/-!
# Cancellation

Tokens form a forest: cancelling a token cancels the tokens derived from it, never the one it was
derived from. A callback of a token runs when the token is cancelled, or at once if it already is.

A token is **held** by the handles to it and by the callbacks, still to come or running, that
mention it. A parent does not hold its children: what nobody holds is dropped with its callbacks,
and a cancellation does not pass through it.

Cancelling is a work list. Each step takes the weight of the list and of the tokens not yet
cancelled down, so that it ends whatever the callbacks cancel.
-/

namespace AgentMemory.Cancel

/-- A token. -/
structure Token where
  index : Nat
  deriving DecidableEq, Inhabited

/-- What is done when a token is cancelled: report, then cancel other tokens. -/
structure Callback where
  label : String
  /-- The tokens whose state is reported, each under a name. -/
  watches : Option (List (String × Token)) := none
  cancels : List Token := []

structure Firing where
  label : String
  seen : Option (List (String × Bool))
  deriving DecidableEq

/-- Whether a callback mentions a token. -/
def Callback.mentions (c : Callback) (t : Token) : Bool :=
  c.cancels.contains t || (c.watches.getD []).any (·.2 = t)

/-- What is known of a token. -/
structure Node where
  cancelled : Bool := false
  dropped : Bool := false
  handles : Nat := 1
  callbacks : List Callback := []
  children : List Token := []

/-- A node that nothing hangs on any more. -/
def Node.cleared (n : Node) : Node := { n with callbacks := [], children := [] }

/-- All tokens. -/
structure Forest where
  nodes : List Node := []

/-- What is left to do. -/
inductive Task where
  | cancel (t : Token)
  | call (c : Callback)
  /-- A callback has come to its end and lets go of the tokens it mentions. -/
  | release (c : Callback)

/-- What a callback does once it has reported. -/
def Callback.tasks (c : Callback) : List Task := c.cancels.map .cancel ++ [.release c]

/-- Whether a task keeps a token in use. -/
def Task.mentions (t : Token) : Task → Bool
  | cancel _ => false
  | call c => c.mentions t
  | release c => c.mentions t

/-! ## Weights -/

/-- The number of steps that a callback takes, and one more. -/
def Callback.weight (c : Callback) : Nat := c.cancels.length + 2

/-- The steps that hang on a node. -/
def Node.weight (n : Node) : Nat :=
  (n.callbacks.map Callback.weight).foldr (· + ·) 0 + n.children.length

/-- The steps of a task, apart from those that hang on nodes. -/
def Task.weight : Task → Nat
  | cancel _ => 1
  | call c => c.weight
  | release _ => 1

/-- The steps of a list of tasks. -/
def agendaWeight (tasks : List Task) : Nat := (tasks.map Task.weight).foldr (· + ·) 0

namespace Forest

/-- The steps that hang on all nodes. -/
def weight (f : Forest) : Nat := (f.nodes.map Node.weight).foldr (· + ·) 0

/-! ## Single tokens -/

def node? (f : Forest) (t : Token) : Option Node := f.nodes[t.index]?

def modify (f : Forest) (t : Token) (change : Node → Node) : Forest :=
  ⟨f.nodes.modify t.index change⟩

def isCancelled (f : Forest) (t : Token) : Bool := (f.node? t).any (·.cancelled)

/-- Whether a token can be cancelled: it is there and not cancelled yet. -/
def isOpen (f : Forest) (t : Token) : Bool := (f.node? t).any fun n => !n.cancelled && !n.dropped

/-- A further node, and its token. -/
def add (f : Forest) (n : Node) : Forest × Token := (⟨f.nodes ++ [n]⟩, ⟨f.nodes.length⟩)

def fresh (f : Forest) : Forest × Token := f.add {}

/-- A token derived from another. Derived from a cancelled one it is cancelled from the start. -/
def child (f : Forest) (parent : Token) : Forest × Token :=
  if f.isCancelled parent then f.add { cancelled := true }
  else
    let (f, t) := f.add {}
    (f.modify parent fun n => { n with children := n.children ++ [t] }, t)

/-- A second handle to a token. -/
def clone (f : Forest) (t : Token) : Forest :=
  f.modify t fun n => { n with handles := n.handles + 1 }

/-! ## Dropping -/

/-- Whether anything holds a token. -/
def isHeld (f : Forest) (tasks : List Task) (t : Token) (n : Node) : Bool :=
  0 < n.handles || tasks.any (·.mentions t) || f.nodes.any (·.callbacks.any (·.mentions t))

/-- Drops every token that nothing holds. -/
def dropUnheld (f : Forest) (tasks : List Task) : Forest :=
  ⟨f.nodes.mapIdx fun i n =>
    if f.isHeld tasks ⟨i⟩ n then n else { n.cleared with dropped := true }⟩

/-- Drops tokens until something holds each that is left. A round that changes anything drops a
token, so as many rounds as there are tokens are enough. -/
def sweep (f : Forest) (tasks : List Task) : Forest :=
  f.nodes.length.repeat (·.dropUnheld tasks) f

/-- Lets go of a handle to a token. -/
def drop (f : Forest) (t : Token) : Forest :=
  (f.modify t fun n => { n with handles := n.handles - 1 }).sweep []

/-! ## Cancelling -/

/-- The token cancelled, and what follows from it: its callbacks in the order in which they were
registered, then its children. -/
def close (f : Forest) (t : Token) : Forest × List Task :=
  match f.node? t with
  | none => (f, [])
  | some n =>
    (f.modify t fun n => { n.cleared with cancelled := true },
      n.callbacks.map .call ++ n.children.map .cancel)

/-- The report of a callback. -/
def fire (f : Forest) (c : Callback) : Firing where
  label := c.label
  seen := c.watches.map fun ws => ws.map fun (name, t) => (name, f.isCancelled t)

theorem agendaWeight_cancels (ts : List Token) : agendaWeight (ts.map .cancel) = ts.length := by
  induction ts with
  | nil => rfl
  | cons t ts ih =>
    simp only [agendaWeight, List.map_cons, List.foldr_cons, List.length_cons,
      Task.weight] at ih ⊢
    omega

theorem agendaWeight_append (xs ys : List Task) :
    agendaWeight (xs ++ ys) = agendaWeight xs + agendaWeight ys := by
  induction xs with
  | nil => simp [agendaWeight]
  | cons x xs ih =>
    simp only [agendaWeight, List.cons_append, List.map_cons, List.foldr_cons] at ih ⊢
    omega

theorem weight_modify {change : Node → Node} {k : Nat} (f : Forest) (t : Token) (n : Node)
    (hn : f.node? t = some n) (hk : (change n).weight + k = n.weight) :
    (f.modify t change).weight + k = f.weight := by
  obtain ⟨nodes⟩ := f
  obtain ⟨i⟩ := t
  simp only [node?, modify, weight] at hn ⊢
  induction nodes generalizing i with
  | nil => simp at hn
  | cons a l ih =>
    cases i with
    | zero =>
      simp only [List.getElem?_cons_zero, Option.some.injEq] at hn
      subst hn
      simp only [List.modify_zero_cons, List.map_cons, List.foldr_cons]
      omega
    | succ i =>
      have := ih i hn
      simp only [List.modify_succ_cons, List.map_cons, List.foldr_cons]
      omega

theorem weight_close (f : Forest) (t : Token) :
    (f.close t).1.weight + agendaWeight (f.close t).2 = f.weight := by
  unfold close
  split
  · simp [agendaWeight]
  · rename_i n hn
    refine weight_modify f t n hn ?_
    rw [agendaWeight_append, agendaWeight_cancels]
    simp [Node.weight, Node.cleared, agendaWeight, Function.comp_def, Task.weight]

theorem weight_dropUnheld_le (f : Forest) (tasks : List Task) :
    (f.dropUnheld tasks).weight ≤ f.weight := by
  simp only [dropUnheld, weight]
  generalize f.isHeld tasks = held
  generalize f.nodes = nodes
  suffices h : ∀ (g : Nat → Node → Node), (∀ i n, (g i n).weight ≤ n.weight) →
      ((nodes.mapIdx g).map Node.weight).foldr (· + ·) 0 ≤
        (nodes.map Node.weight).foldr (· + ·) 0 by
    refine h _ fun i n => ?_
    split
    · exact Nat.le_refl _
    · simp [Node.weight, Node.cleared]
  induction nodes with
  | nil => simp
  | cons a l ih =>
    intro g hg
    have := ih (fun i => g (i + 1)) fun i n => hg (i + 1) n
    have := hg 0 a
    simp only [List.mapIdx_cons, List.map_cons, List.foldr_cons]
    omega

theorem weight_sweep_le (f : Forest) (tasks : List Task) : (f.sweep tasks).weight ≤ f.weight := by
  unfold sweep
  generalize f.nodes.length = k
  induction k with
  | zero => exact Nat.le_refl _
  | succ k ih => exact Nat.le_trans (weight_dropUnheld_le _ tasks) ih

/-- Does all tasks, and reports the callbacks in the order in which they ran. -/
def run (f : Forest) : List Task → Forest × List Firing
  | [] => (f, [])
  | .cancel t :: tasks =>
    if f.isOpen t then (f.close t).1.run ((f.close t).2 ++ tasks) else f.run tasks
  | .call c :: tasks =>
    let (g, firings) := f.run (c.tasks ++ tasks)
    (g, f.fire c :: firings)
  | .release _ :: tasks => (f.sweep tasks).run tasks
termination_by tasks => f.weight + agendaWeight tasks
decreasing_by
  · have := weight_close f t
    rw [agendaWeight_append]
    simp only [agendaWeight, List.map_cons, List.foldr_cons, Task.weight] at this ⊢
    omega
  · simp only [agendaWeight, List.map_cons, List.foldr_cons, Task.weight]
    omega
  · rw [agendaWeight_append, Callback.tasks, agendaWeight_append, agendaWeight_cancels]
    simp only [agendaWeight, List.map_cons, List.map_nil, List.foldr_cons, List.foldr_nil,
      Task.weight, Callback.weight]
    omega
  · have := weight_sweep_le f tasks
    simp only [agendaWeight, List.map_cons, List.foldr_cons, Task.weight]
    omega

/-- Cancels a token and the tokens derived from it. -/
def cancel (f : Forest) (t : Token) : Forest × List Firing := f.run [.cancel t]

/-- Registers a callback; it runs at once if the token is cancelled. -/
def onCancel (f : Forest) (t : Token) (c : Callback) : Forest × List Firing :=
  if f.isCancelled t then f.run [.call c]
  else (f.modify t fun n => { n with callbacks := n.callbacks ++ [c] }, [])

def describe (f : Forest) (t : Token) : String :=
  "CancelToken \x7b cancelled: " ++ (if f.isCancelled t then "true" else "false") ++ " \x7d"

end Forest
end AgentMemory.Cancel
