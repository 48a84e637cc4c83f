import Flowgraph.Sample.Sketch

/-!
# Structured control flow from random words

A generator of sketches that are made of sequences, two-way diamonds, loops that test first and
loops that test last. Each construct costs one unit of a budget. The choices come from a source of
64-bit words.

A choice out of three passes over the word zero, so that the choices are equally likely. All words
are equally likely in a source, so that it does not go on with zeros for ever: from every place on
there is a number of words after which another one comes.

## Budgets

The budget is what bounds the recursion, and it is also what decides the size of a graph. It is
passed along from left to right: what one construct has not used is there for those after it.
-/

namespace Flowgraph.Structured

/-! ## Sources -/

/-- A source of random words. -/
structure Source where
  /-- The words by place. -/
  word : Nat → UInt64
  /-- The number of words in front of one that is not zero, from a place on. -/
  patience : Nat → Nat
  /-- A source does not give zeros for ever. -/
  word_ne_zero : ∀ place, word (place + patience place) ≠ 0

namespace Source

/-- The source that gives the words of a list in turn, cyclically. Where all of them are zero, ones
stand in for them. -/
def cyclic (words : Array UInt64) : Source :=
  match h : words.findIdx? (· ≠ 0) with
  | none => ⟨fun _ ↦ 1, fun _ ↦ 0, fun _ ↦ by decide⟩
  | some i =>
    { word := fun place ↦ words[place % words.size]?.getD 0
      patience := fun place ↦ words.size - place % words.size + i
      word_ne_zero := fun place ↦ by
        obtain ⟨hi, hne, -⟩ := Array.findIdx?_eq_some_iff_getElem.mp h
        have hround : place + (words.size - place % words.size + i)
            = i + words.size * (place / words.size + 1) := by
          have := Nat.div_add_mod place words.size
          have := Nat.mod_lt place (Nat.zero_lt_of_lt hi)
          rw [Nat.mul_add, Nat.mul_one]
          omega
        rw [hround, Nat.add_mul_mod_self_left, Nat.mod_eq_of_lt hi, Array.getElem?_eq_getElem hi]
        simpa using hne }

instance : Coe (Array UInt64) Source := ⟨cyclic⟩

end Source

/-! ## Steps -/

/-- The state of the generator. -/
structure State where
  /-- The number of words read. -/
  used : Nat
  budget : Nat
  successors : Array (List BlockIndex)
  /-- The loops with their members, in the order in which they were opened. -/
  loops : List (BlockIndex × List BlockIndex)
  /-- The headers of the open loops, innermost first. -/
  openLoops : List BlockIndex

def State.start (budget : Nat) : State := ⟨0, budget, #[], [], []⟩

/-- A step of the generator. -/
abbrev Gen := StateM State

namespace Gen

def word (source : Source) : Gen UInt64 := do
  let s ← get
  set { s with used := s.used + 1 }
  return source.word s.used

/-- One of four choices: the two lowest bits of a word. -/
def four (source : Source) : Gen Nat := do return (← word source).toNat % 4

/-- One of three choices: the whole part of `3 w / 2 ^ 64` for a word `w`. A word whose product
leaves no remainder is passed over, up to a number of such words. -/
def threeWithin (source : Source) : (attempts : Nat) → Gen Nat
  | 0 => do return (← word source).toNat * 3 / 0x10000000000000000
  | attempts + 1 => do
    let p := (← word source).toNat * 3
    let words := 0x10000000000000000
    if p % words = 0 then threeWithin source attempts else return p / words

def three (source : Source) : Gen Nat := do
  threeWithin source (source.patience (← get).used)

/-- A new block, a member of all open loops. -/
def newBlock : Gen BlockIndex := do
  let s ← get
  let b := s.successors.size
  set { s with
    successors := s.successors.push []
    loops := s.loops.map fun (h, members) ↦
      if s.openLoops.contains h then (h, members ++ [b]) else (h, members) }
  return b

def connect (b : BlockIndex) (successors : List BlockIndex) : Gen Unit :=
  modify fun s ↦ { s with successors := s.successors.setIfInBounds b successors }

def openLoop (h : BlockIndex) : Gen Unit :=
  modify fun s ↦ { s with loops := s.loops ++ [(h, [h])], openLoops := h :: s.openLoops }

def closeLoop : Gen Unit := modify fun s ↦ { s with openLoops := s.openLoops.tail }

/-- One construct that starts at the unfinished block `cur`; gives the unfinished block where
control goes on. -/
def construct (source : Source) (region : BlockIndex → Gen BlockIndex) (cur : BlockIndex) :
    Gen BlockIndex := do
  match ← four source with
  | 0 =>
    let t ← newBlock
    let f ← newBlock
    connect cur [t, f]
    let tEnd ← region t
    let fEnd ← region f
    let join ← newBlock
    connect tEnd [join]
    connect fEnd [join]
    return join
  | 1 =>
    let h ← newBlock
    connect cur [h]
    openLoop h
    let body ← newBlock
    let bodyEnd ← region body
    connect bodyEnd [h]
    closeLoop
    let exit ← newBlock
    connect h [body, exit]
    return exit
  | 2 =>
    let h ← newBlock
    connect cur [h]
    openLoop h
    let bodyEnd ← region h
    closeLoop
    let exit ← newBlock
    connect bodyEnd [h, exit]
    return exit
  | _ =>
    let next ← newBlock
    connect cur [next]
    return next

/-- Up to `count` constructs in a row, as far as the budget goes. -/
def constructs (source : Source) (region : BlockIndex → Gen BlockIndex) :
    (count : Nat) → BlockIndex → Gen BlockIndex
  | 0, cur => return cur
  | count + 1, cur => do
    let s ← get
    if s.budget = 0 then return cur
    set { s with budget := s.budget - 1 }
    constructs source region count (← construct source region cur)

/-- One to three constructs in a row. A region inside a construct has a smaller budget, which
bounds the depth. -/
def region (source : Source) : (depth : Nat) → BlockIndex → Gen BlockIndex
  | 0, cur => return cur
  | depth + 1, cur => do
    let count ← three source
    constructs source (region source depth) (count + 1) cur

end Gen

/-! ## Sketches -/

/-- A generated sketch, with the members of each of its loops. -/
structure Generated where
  sketch : Sketch
  loops : List (BlockIndex × List BlockIndex)
  used : Nat

def State.generated (s : State) : Generated :=
  ⟨⟨s.successors.toList, s.loops.map Prod.fst⟩, s.loops, s.used⟩

/-- Generates a sketch with regions up to a given depth. -/
def generateWithin (source : Source) (depth budget : Nat) : Generated :=
  let generator : Gen Unit := do
    let entry ← Gen.newBlock
    let _ ← Gen.region source depth entry
  (generator.run (.start budget)).2.generated

/-- Generates a sketch of about `budget` constructs. -/
def generate (source : Source) (budget : Int) : Generated :=
  generateWithin source (budget.toNat + 1) budget.toNat

end Flowgraph.Structured
