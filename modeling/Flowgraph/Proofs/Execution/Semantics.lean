import Flowgraph.Proofs.Graph.Slots
import Mathlib.Logic.Function.Iterate

/-!
# Running a graph

What a graph does when it is run, under any meaning of its operations. Calls and required
operations are seen from outside: each is an event with its arguments, and what it gives back may
depend on everything that was seen before. All other operations compute a value from those of their
inputs. Terminators and removed operations have one fixed value, which is also the value of an
operation that was not run yet.

## Blocks

A run goes on block by block. The operations of a block are performed in order, and then its
terminator says which edge is taken. A phi takes the input in the slot of the edge over which its
block was entered, with the value which that input had when the block was entered, so that the phis
of a block take their inputs all at once. A run ends when a block returns.
-/

namespace Flowgraph

namespace Execution

universe u

variable {V : Type u}

/-- What is seen of a run from outside. -/
inductive Event (V : Type u) where
  | call (callee : ByteArray) (args : List V)
  | effect (mnemonic : ByteArray) (args : List V)

/-- A meaning of the operations. -/
structure Interpretation (V : Type u) where
  /-- The value of what has no value of its own. -/
  dummy : V
  /-- The value of an operation that is not required. -/
  compute : ByteArray → List V → V
  /-- The value of an operation whose code has no meaning. -/
  unknown : { c : UInt8 // 6 < c } → List V → V
  /-- The side that a branch takes. -/
  truth : V → Bool
  /-- What the last of a list of events gives back. -/
  answer : List (Event V) → V

/-- The values of the operations, and what was seen so far. -/
structure Memory (V : Type u) where
  value : OpIndex → V
  history : List (Event V)

namespace Memory

/-- Gives operation `i` a value. -/
def set (m : Memory V) (i : OpIndex) (v : V) : Memory V :=
  { m with value := Function.update m.value i v }

/-- Makes operation `i` an event, whose answer is its value. -/
def observe (m : Memory V) (I : Interpretation V) (i : OpIndex) (e : Event V) : Memory V :=
  ⟨Function.update m.value i (I.answer (m.history ++ [e])), m.history ++ [e]⟩

end Memory

/-- How the current block was entered: the slot of the edge, if there is one, and the values at that
time. -/
structure Entrance (V : Type u) where
  slot : Option Nat
  value : OpIndex → V

/-- What a phi with the given inputs takes. -/
def Entrance.pick (I : Interpretation V) (e : Entrance V) (inputs : List OpIndex) : V :=
  (e.slot.bind (inputs[·]?)).elim I.dummy e.value

def perform (I : Interpretation V) (e : Entrance V) (m : Memory V) (i : OpIndex)
    (op : Operation) : Memory V :=
  let args := op.inputs.map m.value
  match op.action with
  | .other mnemonic true => m.observe I i (.effect mnemonic args)
  | .other mnemonic false => m.set i (I.compute mnemonic args)
  | .phi _ => m.set i (e.pick I op.inputs)
  | .call callee => m.observe I i (.call callee args)
  | .reserved c => m.set i (I.unknown c args)
  | .goto _ | .branch .. | .ret | .dead => m.set i I.dummy

/-- Performs the listed operations of a graph. -/
def performAll (g : Graph) (I : Interpretation V) (e : Entrance V) (m : Memory V)
    (l : List OpIndex) : Memory V :=
  l.foldl (fun m i ↦ match g.ops[i]? with
    | some op => perform I e m i op
    | none => m) m

/-- Where a run is. -/
inductive Status (V : Type u) where
  /-- About to run a block that was entered through a slot. -/
  | running (b : BlockIndex) (slot : Option Nat)
  | returned (values : List V)
  /-- A block ended without saying how to go on. -/
  | stuck

/-- A state of a run. -/
structure State (V : Type u) where
  status : Status V
  memory : Memory V

/-- Takes one of the edges out of a block. An edge is the first of those to its target, or the
second if both sides of a branch lead there. -/
def follow (g : Graph) (b : BlockIndex) (side : Nat) : Status V :=
  match (g.successors b)[side]? with
  | some t => .running t (g.slots t b)[((g.successors b).take side).count t]?
  | none => .stuck

/-- How a block goes on after its operations. -/
def leave (g : Graph) (I : Interpretation V) (b : BlockIndex) (m : Memory V) : Status V :=
  match (g.terminator? b).bind (g.ops[·]?) with
  | none => .stuck
  | some op =>
    match op.action with
    | .goto _ => follow g b 0
    | .branch .. =>
      follow g b (if I.truth (op.inputs.head?.elim I.dummy m.value) then 0 else 1)
    | .ret => .returned (op.inputs.map m.value)
    | _ => .stuck

/-- Runs one block. -/
def step (g : Graph) (I : Interpretation V) (s : State V) : State V :=
  match s.status with
  | .running b slot =>
    let m := performAll g I ⟨slot, s.memory.value⟩ s.memory (g.span b).toList
    ⟨leave g I b m, m⟩
  | _ => s

/-- The entry, before anything has happened. -/
def start (I : Interpretation V) : State V := ⟨.running 0 none, ⟨fun _ ↦ I.dummy, []⟩⟩

/-- The state after a number of blocks. -/
def run (g : Graph) (I : Interpretation V) (n : Nat) : State V := (step g I)^[n] (start I)

/-- The events `es` are the first ones of a run. -/
def Emits (g : Graph) (I : Interpretation V) (es : List (Event V)) : Prop :=
  ∃ n, es <+: (run g I n).memory.history

/-- The run returns the given values. -/
def Returns (g : Graph) (I : Interpretation V) (values : List V) : Prop :=
  ∃ n, (run g I n).status = .returned values

/-- The run never ends. -/
def Diverges (g : Graph) (I : Interpretation V) : Prop :=
  ∀ n, ∃ b slot, (run g I n).status = .running b slot

/-! ## Runs -/

theorem step_of_running {g : Graph} {I : Interpretation V} {b : BlockIndex} {slot : Option Nat}
    {m : Memory V} : step g I ⟨.running b slot, m⟩ =
      ⟨leave g I b (performAll g I ⟨slot, m.value⟩ m (g.span b).toList),
        performAll g I ⟨slot, m.value⟩ m (g.span b).toList⟩ := rfl

theorem run_succ (g : Graph) (I : Interpretation V) (n : Nat) :
    run g I (n + 1) = step g I (run g I n) := Function.iterate_succ_apply' _ _ _

theorem run_add (g : Graph) (I : Interpretation V) (m n : Nat) :
    run g I (m + n) = (step g I)^[n] (run g I m) := by
  rw [run, run, Nat.add_comm, Function.iterate_add_apply]

/-- A run that has ended stays as it is. -/
theorem iterate_step_of_ended {g : Graph} {I : Interpretation V} {s : State V}
    (h : ∀ b slot, s.status ≠ .running b slot) (n : Nat) : (step g I)^[n] s = s := by
  refine Function.iterate_fixed ?_ n
  rw [step]
  split
  · rename_i b slot hs
    exact absurd hs (h b slot)
  · rfl

private theorem perform_history (I : Interpretation V) (e : Entrance V) (m : Memory V) (i : OpIndex)
    (op : Operation) : m.history <+: (perform I e m i op).history := by
  rw [perform]
  split <;> first | exact List.prefix_append _ _ | exact List.prefix_rfl

private theorem performAll_history (g : Graph) (I : Interpretation V) (e : Entrance V) :
    ∀ (l : List OpIndex) (m : Memory V), m.history <+: (performAll g I e m l).history := by
  intro l
  induction l with
  | nil => exact fun m ↦ List.prefix_rfl
  | cons i l ih =>
    intro m
    rw [performAll, List.foldl_cons]
    refine List.IsPrefix.trans ?_ (ih _)
    split
    · exact perform_history I e m i _
    · exact List.prefix_rfl

/-- What was seen stays seen. -/
theorem iterate_step_history (g : Graph) (I : Interpretation V) :
    ∀ (n : Nat) (s : State V), s.memory.history <+: ((step g I)^[n] s).memory.history := by
  intro n
  induction n with
  | zero => exact fun s ↦ List.prefix_rfl
  | succ n ih =>
    intro s
    rw [Function.iterate_succ_apply]
    refine List.IsPrefix.trans ?_ (ih _)
    rw [step]
    split
    · exact performAll_history g I _ _ s.memory
    · exact List.prefix_rfl

end Execution

end Flowgraph
