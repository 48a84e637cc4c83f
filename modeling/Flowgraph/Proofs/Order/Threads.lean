import Flowgraph.Proofs.Order.Links
import Flowgraph.Proofs.Order.Numbering

/-!
# Ordering with a stack and links

The searches behind the special reverse postorder are recursive functions, and the orders that they
build are lists. A `Numberer` runs the same searches in a loop over an explicit stack and keeps the
orders in a table of links. The body of a loop is set aside in that table when its header runs out
of successors, while the header stays on the stack until the edges that leave the loop are followed
as well.

This module has the numberer itself and its first half: the discovery search and the collection of
the loops. `Discovers` ties a state of the numberer to a state of the search. The stack is left out
of it. What is said about the stack is that following the edges of the block on top, and everything
below them, leaves the rest of the stack as it was.

## Bounds

The loops of a numberer are bounded by `fuel`, as are the walks along links within one step. `Gives`
says that the outcome is the same for every bound from some number on: the computation ends.
-/

namespace Flowgraph

/-! ## The numberer

A frame is a block with its successors and the number of those that were followed. The tables are
those of the program: marks, numbers of loops, links, and one record for each loop. -/

namespace Numberer

/-- How far the two searches are done with a block. -/
inductive Mark where
  | unvisited
  | onStack
  | visited1
  | visited2
deriving DecidableEq

/-- A block under visit, with its successors and the number of edges that were followed. -/
structure Frame where
  block : BlockIndex
  index : Nat
  successors : List BlockIndex

/-- What is kept about a loop. -/
structure LoopRecord where
  /-- The header and the members, once a backedge was looked at. -/
  loop? : Option Loop
  /-- The targets of the edges that leave the loop. -/
  outgoing : List BlockIndex
  /-- The loop that was open when this one was opened. -/
  around? : Option Nat
  /-- Where the body starts. -/
  first? : Option BlockIndex
  /-- What follows the body. -/
  behind? : Option BlockIndex

/-- Nothing is known about a loop. -/
def LoopRecord.blank : LoopRecord := ⟨none, [], none, none, none⟩

end Numberer

/-- The state of the ordering. -/
structure Numberer where
  marks : Array Numberer.Mark
  /-- For each header the number of its loop. -/
  loopOf : Array (Option Nat)
  next : NextTable
  stack : List Numberer.Frame
  backedges : Array Backedge
  loopCount : Nat
  loops : Array Numberer.LoopRecord
  /-- Where the order starts. -/
  order? : Option BlockIndex
  /-- The innermost open loop. -/
  open? : Option Nat

namespace Numberer

open Attempt (read write)

/-- Nothing is done yet. -/
def start (n : Nat) : Numberer :=
  ⟨Array.replicate n .unvisited, Array.replicate n none, Array.replicate n none, [], #[], 0, #[],
    none, none⟩

/-- Puts a block on the stack. -/
def entered (g : Graph) (m : Numberer) (b : BlockIndex) : Numberer :=
  { m with
    stack := ⟨b, 0, g.successors b⟩ :: m.stack
    marks := m.marks.setIfInBounds b .onStack }

/-- Puts a block with a given mark on the stack. -/
def push (g : Graph) (m : Numberer) (b : BlockIndex) (mark : Mark) : Attempt Numberer := do
  if (← read m.marks b) = mark then return m.entered g b else return m

/-- Takes the block on top off the stack and puts it in front of the order. -/
def pop (m : Numberer) (b : BlockIndex) (below : List Frame) (mark : Mark) : Attempt Numberer := do
  let next ← write m.next b m.order?
  let marks ← write m.marks b mark
  return { m with next, marks, order? := some b, stack := below }

/-- Counts an edge of the block on top. -/
def advanced (m : Numberer) (f : Frame) (below : List Frame) : Numberer :=
  { m with stack := { f with index := f.index + 1 } :: below }

/-- Repeats a step until the stack is empty. -/
def drive (step : Numberer → Attempt Numberer) : (fuel : Nat) → Numberer → Attempt Numberer
  | 0, m => if m.stack.isEmpty then pure m else .unfinished
  | fuel + 1, m => if m.stack.isEmpty then pure m else do drive step fuel (← step m)

/-! ### The discovery search -/

/-- Records a backedge, and a loop if its header has none yet. -/
def record (m : Numberer) (b c : BlockIndex) : Attempt Numberer := do
  let m := { m with backedges := m.backedges.push ⟨b, c⟩ }
  match ← read m.loopOf c with
  | some _ => return m
  | none => return { m with
      loopOf := m.loopOf.setIfInBounds c (some m.loopCount)
      loopCount := m.loopCount + 1 }

/-- Follows an edge from `b` to `c`. -/
def discoverEdge (g : Graph) (m : Numberer) (b c : BlockIndex) : Attempt Numberer := do
  match ← read m.marks c with
  | .visited1 => return m
  | .onStack => m.record b c
  | _ => m.push g c .unvisited

/-- One turn of the discovery search. -/
def discoverStep (g : Graph) (m : Numberer) : Attempt Numberer :=
  match m.stack with
  | [] => pure m
  | f :: below =>
    match f.successors[f.index]? with
    | some c => (m.advanced f below).discoverEdge g f.block c
    | none => m.pop f.block below .visited1

/-! ### The loops -/

/-- Walks backward from the blocks in `pending` until none is left. -/
def drain (g : Graph) (header : BlockIndex) : (fuel : Nat) → IndexSet × List BlockIndex →
    Attempt IndexSet
  | _, (members, []) => pure members
  | 0, (_, _ :: _) => .unfinished
  | fuel + 1, (members, b :: pending) =>
    drain g header fuel
      (((g.predecessors b).reverse.filter (· ≠ header)).foldl Loop.reach (members, pending))

/-- Adds what a backedge brings into its loop. -/
def gather (g : Graph) (fuel : Nat) (loopOf : Array (Option Nat)) (loops : Array LoopRecord)
    (e : Backedge) : Attempt (Array LoopRecord) := do
  match ← read loopOf e.header with
  | none => throw (.breach .fault)
  | some l =>
    let r ← read loops l
    let loop := r.loop?.getD (.start g.blockCount e.header)
    if e.source = e.header then write loops l { r with loop? := some loop }
    else
      let members ← drain g e.header fuel (Loop.reach (loop.members, []) e.source)
      write loops l { r with loop? := some { loop with members } }

/-! ### The layout -/

/-- Closes the loop of a header that ran out of successors for the first time: its body is what was
laid out since the loop was opened. -/
def close (m : Numberer) (b : BlockIndex) (l : Nat) : Attempt Numberer := do
  if m.open? ≠ some l then throw (.breach (.loopStackCorrupted b))
  else
    let r ← read m.loops l
    let next ← write m.next b m.order?
    let marks ← write m.marks b .visited2
    let loops ← write m.loops l { r with first? := some b }
    return { m with next, marks, loops, order? := r.behind?, open? := r.around? }

/-- Closes the loop of the block on top, if that block is a header without further successors and
its loop is still open. -/
def settle (m : Numberer) (f : Frame) : Attempt Numberer := do
  if f.index < f.successors.length then return m
  else match ← read m.loopOf f.block with
    | none => return m
    | some l => if (← read m.marks f.block) = .onStack then m.close f.block l else return m

/-- The target of the next edge of the block on top. The edges that leave its loop come after its
own. -/
def target? (m : Numberer) (f : Frame) : Attempt (Option BlockIndex) := do
  match f.successors[f.index]? with
  | some c => return some c
  | none => match ← read m.loopOf f.block with
    | none => return none
    | some l => return (← read m.loops l).outgoing[f.index - f.successors.length]?

/-- Does loop `l` contain block `c`? -/
def contains (m : Numberer) (l : Nat) (c : BlockIndex) : Attempt Bool := do
  match (← read m.loops l).loop? with
  | none => throw (.breach .fault)
  | some loop => return loop.members.contains c

/-- Opens the loop of a header that was put on the stack. -/
def opened (m : Numberer) (c : BlockIndex) : Attempt Numberer := do
  match ← read m.loopOf c with
  | none => return m
  | some l =>
    let r ← read m.loops l
    let loops ← write m.loops l { r with behind? := m.order?, around? := m.open? }
    return { m with loops, open? := some l }

/-- Visits a block that was not visited in this search. -/
def enter (g : Graph) (m : Numberer) (c : BlockIndex) : Attempt Numberer := do
  (← m.push g c .visited1).opened c

/-- Parks an edge at the innermost open loop. -/
def park (m : Numberer) (l : Nat) (c : BlockIndex) : Attempt Numberer := do
  let r ← read m.loops l
  return { m with loops := ← write m.loops l { r with outgoing := r.outgoing ++ [c] } }

def layoutEdge (g : Graph) (m : Numberer) (c : BlockIndex) : Attempt Numberer := do
  match ← read m.marks c with
  | .onStack | .visited2 => return m
  | _ => match m.open? with
    | none => m.enter g c
    | some l => if ← m.contains l c then m.enter g c else m.park l c

/-- Puts the body of loop `l` in front of the order. -/
def splice (m : Numberer) (fuel : Nat) (l : Nat) (below : List Frame) : Attempt Numberer := do
  let r ← read m.loops l
  let last ← seek m.next r.behind? fuel r.first?
  let next ← write m.next last m.order?
  let loops ← write m.loops l { r with behind? := m.order? }
  return { m with next, loops, order? := r.first?, stack := below }

/-- Takes the block on top off the stack. -/
def retire (m : Numberer) (fuel : Nat) (f : Frame) (below : List Frame) : Attempt Numberer := do
  match ← read m.loopOf f.block with
  | none => m.pop f.block below .visited2
  | some l => m.splice fuel l below

def layoutStep (g : Graph) (fuel : Nat) (m : Numberer) : Attempt Numberer :=
  match m.stack with
  | [] => pure m
  | f :: below => do
    let m ← m.settle f
    match ← m.target? f with
    | some c => (m.advanced f below).layoutEdge g c
    | none => m.retire fuel f below

/-! ### The order -/

/-- Both searches from the entry, one after the other if there are loops. -/
def search (g : Graph) (fuel : Nat) : Attempt Numberer := do
  let m ← (start g.blockCount).push g 0 .unvisited
  let m ← drive (discoverStep g) fuel m
  if m.loopCount = 0 then return m
  else
    let loops ← m.backedges.toList.foldlM (gather g fuel m.loopOf)
      (Array.replicate m.loopCount .blank)
    let m ← { m with loops, order? := none, open? := none }.push g 0 .visited1
    drive (layoutStep g fuel) fuel m

/-- Reads the order off the links. It has to hold every block. -/
def linearize (g : Graph) (m : Numberer) : Attempt (List BlockIndex) := do
  let order ← walk m.next g.blockCount m.order?
  if order.length = g.blockCount then return order
  else throw (.breach (.orderCovers order.length g.blockCount))

/-- The special reverse postorder. -/
def compute (g : Graph) (fuel : Nat) : Attempt (List BlockIndex) := do
  if g.blockCount = 0 then return [] else linearize g (← search g fuel)

end Numberer

/-! ## Outcomes

A computation in a loop with a bound comes to its outcome if turns lead to a state in which nothing
is left to do. Turns can be put together, so that what follows is a matter of what each visit does.
-/

namespace Attempt

variable {α β : Type}

/-- The outcome is `r` for every bound from some number on. -/
def Gives (x : Nat → Attempt α) (r : Except Halt α) : Prop :=
  ∃ k, ∀ fuel, k ≤ fuel → x fuel = ExceptT.mk (some r)

theorem gives_pure (a : α) : Gives (fun _ ↦ pure a) (.ok a) := ⟨0, fun _ _ ↦ rfl⟩

theorem gives_throw (e : Halt) : Gives (fun _ ↦ (throw e : Attempt α)) (.error e) :=
  ⟨0, fun _ _ ↦ rfl⟩

theorem Gives.bind {x : Nat → Attempt α} {f : Nat → α → Attempt β} {a : α} {r : Except Halt β}
    (hx : Gives x (.ok a)) (hf : Gives (fun fuel ↦ f fuel a) r) :
    Gives (fun fuel ↦ x fuel >>= f fuel) r := by
  obtain ⟨k, hk⟩ := hx
  obtain ⟨j, hj⟩ := hf
  refine ⟨max k j, fun fuel hfuel ↦ ?_⟩
  change x fuel >>= f fuel = _
  rw [hk fuel (Nat.le_trans (Nat.le_max_left k j) hfuel),
    ← hj fuel (Nat.le_trans (Nat.le_max_right k j) hfuel)]
  rfl

theorem Gives.bind_error {x : Nat → Attempt α} {f : Nat → α → Attempt β} {e : Halt}
    (hx : Gives x (.error e)) : Gives (fun fuel ↦ x fuel >>= f fuel) (.error e) := by
  obtain ⟨k, hk⟩ := hx
  refine ⟨k, fun fuel hfuel ↦ ?_⟩
  change x fuel >>= f fuel = _
  rw [hk fuel hfuel]
  rfl

end Attempt

namespace Numberer

/-- One turn leads from `m` to `m'`, for every bound from `n` on. -/
def Turns (n : Nat) (step : Nat → Numberer → Attempt Numberer) (m m' : Numberer) : Prop :=
  m.stack ≠ [] ∧ ∀ fuel, n ≤ fuel → step fuel m = pure m'

/-- Turns lead from `m` to `m'`. -/
abbrev Goes (n : Nat) (step : Nat → Numberer → Attempt Numberer) :
    Numberer → Numberer → Prop :=
  Relation.ReflTransGen (Turns n step)

variable {n : Nat} {step : Nat → Numberer → Attempt Numberer} {m m' : Numberer}

private theorem drive_of_turns (h : Turns n step m m') {fuel : Nat} (hfuel : n ≤ fuel) (k : Nat) :
    drive (step fuel) (k + 1) m = drive (step fuel) k m' := by
  rw [drive, if_neg (by simpa using h.1), h.2 fuel hfuel, pure_bind]

theorem Goes.drive_eq (h : Goes n step m m') :
    ∃ k, ∀ fuel, n ≤ fuel → ∀ j, drive (step fuel) (k + j) m = drive (step fuel) j m' := by
  induction h using Relation.ReflTransGen.head_induction_on with
  | refl => exact ⟨0, fun fuel _ j ↦ by rw [Nat.zero_add]⟩
  | head hturn _ ih =>
    obtain ⟨k, hk⟩ := ih
    refine ⟨k + 1, fun fuel hfuel j ↦ ?_⟩
    rw [Nat.add_right_comm, drive_of_turns hturn hfuel, hk fuel hfuel]

/-- Turns that lead on from one state lead on from every state that makes the same turn. -/
theorem Goes.of_turn_eq {m₁ : Numberer} (h : Goes n step m₁ m') (hne : m₁ ≠ m')
    (hstack : m.stack ≠ []) (heq : ∀ fuel, step fuel m = step fuel m₁) : Goes n step m m' := by
  rcases h.cases_head with rfl | ⟨m₂, hturn, hgoes⟩
  · exact absurd rfl hne
  · exact .head ⟨hstack, fun fuel hfuel ↦ (heq fuel).trans (hturn.2 fuel hfuel)⟩ hgoes

/-- The loop ends once the stack is empty. -/
theorem Goes.gives (h : Goes n step m m') (hstack : m'.stack = []) :
    Attempt.Gives (fun fuel ↦ drive (step fuel) fuel m) (.ok m') := by
  obtain ⟨k, hk⟩ := h.drive_eq
  refine ⟨max n k, fun fuel hfuel ↦ ?_⟩
  have hn := Nat.le_trans (Nat.le_max_left n k) hfuel
  obtain ⟨j, rfl⟩ := Nat.exists_eq_add_of_le (Nat.le_trans (Nat.le_max_right n k) hfuel)
  refine (hk _ hn j).trans ?_
  cases j <;> rw [drive, if_pos (by simp [hstack])] <;> rfl

/-- The loop breaks off where a turn does. -/
theorem Goes.gives_error (h : Goes n step m m') (hstack : m'.stack ≠ []) {e : Halt}
    (hstep : ∀ fuel, n ≤ fuel → step fuel m' = throw e) :
    Attempt.Gives (fun fuel ↦ drive (step fuel) fuel m) (.error e) := by
  obtain ⟨k, hk⟩ := h.drive_eq
  refine ⟨max n (k + 1), fun fuel hfuel ↦ ?_⟩
  have hn := Nat.le_trans (Nat.le_max_left n (k + 1)) hfuel
  obtain ⟨j, rfl⟩ := Nat.exists_eq_add_of_le (Nat.le_trans (Nat.le_max_right n (k + 1)) hfuel)
  rw [Nat.add_assoc]
  refine (hk _ (Nat.add_assoc k 1 j ▸ hn) (1 + j)).trans ?_
  rw [Nat.add_comm 1 j, drive, if_neg (by simpa using hstack), hstep _ (by lia)]
  rfl

end Numberer

/-! ## The discovery search -/

/-- The mark of a block during the discovery search. -/
def Progress.firstMark : Progress → Numberer.Mark
  | .fresh => .unvisited
  | .active => .onStack
  | .done => .visited1

/-- The headers that a search has found so far. -/
def Discovery.headers (s : Discovery) : List BlockIndex :=
  (s.backedges.toList.map Backedge.header).eraseDups

theorem eraseDups_concat (l : List Nat) (a : Nat) :
    (l ++ [a]).eraseDups = if a ∈ l then l.eraseDups else l.eraseDups ++ [a] := by
  rw [List.eraseDups_append]
  split
  · rename_i ha
    simp [List.removeAll, ha]
  · rename_i ha
    simp [List.removeAll, ha, List.eraseDups_cons]

private theorem Discovery.mem_headers {s : Discovery} {c : BlockIndex} :
    c ∈ s.headers ↔ c ∈ s.backedges.toList.map Backedge.header := by
  rw [headers, List.mem_eraseDups]

private theorem Discovery.headers_push (s : Discovery) (b c : BlockIndex) :
    headers { s with backedges := s.backedges.push ⟨b, c⟩ }
      = if c ∈ s.headers then s.headers else s.headers ++ [c] := by
  simp only [mem_headers]
  rw [headers, Array.toList_push, List.map_append, List.map_singleton, eraseDups_concat]
  rfl

theorem findIdx?_eq_none {l : List Nat} {a : Nat} : l.findIdx? (· = a) = none ↔ a ∉ l := by
  rw [List.findIdx?_eq_none_iff]
  constructor
  · intro h ha
    simpa using h a ha
  · intro h b hb
    exact decide_eq_false fun heq ↦ h (heq ▸ hb)

namespace Numberer

variable {g : Graph}

/-- The state `m` of the numberer stands for the state `s` of the discovery search. -/
structure Discovers (g : Graph) (s : Discovery) (m : Numberer) : Prop where
  next_size : m.next.size = g.blockCount
  marks_size : m.marks.size = g.blockCount
  marks : ∀ b : Nat, m.marks[b]? = s.progress[b]?.map Progress.firstMark
  loopOf : ∀ b < g.blockCount, m.loopOf[b]? = some (s.headers.findIdx? (· = b))
  loopCount : m.loopCount = s.headers.length
  backedges : m.backedges = s.backedges
  order : Links m.next m.order? s.order

private theorem discovers_start (g : Graph) :
    Discovers g (.start g.blockCount) (start g.blockCount) where
  next_size := Array.size_replicate
  marks_size := Array.size_replicate
  marks b := by
    simp only [start, Discovery.start, Array.getElem?_replicate]
    split <;> rfl
  loopOf b hb := by
    simp only [start, Array.getElem?_replicate, if_pos hb]
    rfl
  loopCount := rfl
  backedges := rfl
  order := .nil

namespace Discovers

variable {s : Discovery} {m : Numberer} {b c : BlockIndex} {path : List BlockIndex}

private theorem stack (h : Discovers g s m) (st : List Frame) :
    Discovers g s { m with stack := st } :=
  ⟨h.next_size, h.marks_size, h.marks, h.loopOf, h.loopCount, h.backedges, h.order⟩

/-- Every block has a mark that shows its progress. -/
theorem exists_mark (h : Discovers g s m) (hb : b < g.blockCount) :
    ∃ p, s.progress[b]? = some p ∧ m.marks[b]? = some p.firstMark := by
  have hmark := h.marks b
  rw [Array.getElem?_eq_getElem (h.marks_size ▸ hb)] at hmark
  obtain ⟨p, hp, heq⟩ := Option.map_eq_some_iff.mp hmark.symm
  exact ⟨p, hp, by rw [Array.getElem?_eq_getElem (h.marks_size ▸ hb), heq]⟩

private theorem entered (h : Discovers g s m) (hb : b < g.blockCount) :
    Discovers g (s.mark b .active) (m.entered g b) := by
  have hsize : b < m.marks.size := h.marks_size ▸ hb
  obtain ⟨p, hp, -⟩ := h.exists_mark hb
  have hsize' := (Array.getElem?_eq_some_iff.mp hp).1
  exact {
    next_size := h.next_size
    marks_size := (Array.size_setIfInBounds ..).trans h.marks_size
    marks := fun d ↦ by
      rw [Numberer.entered, Discovery.mark, getElem?_setIfInBounds_of_lt hsize,
        getElem?_setIfInBounds_of_lt hsize', h.marks]
      split <;> rfl
    loopOf := h.loopOf
    loopCount := h.loopCount
    backedges := h.backedges
    order := h.order }

private theorem record (h : Discovers g s m) (hc : c < g.blockCount) (b : BlockIndex) :
    ∃ m', m.record b c = pure m' ∧ m'.stack = m.stack ∧
      Discovers g { s with backedges := s.backedges.push ⟨b, c⟩ } m' := by
  have hread := Attempt.read_of_some (h.loopOf c hc)
  have hlt : c < m.loopOf.size := (Array.getElem?_eq_some_iff.mp (h.loopOf c hc)).1
  have hheaders := s.headers_push b c
  cases hidx : s.headers.findIdx? (· = c) with
  | some i =>
    have hmem : c ∈ s.headers := by
      by_contra hnot
      rw [findIdx?_eq_none.mpr hnot] at hidx
      cases hidx
    rw [if_pos hmem] at hheaders
    refine ⟨{ m with backedges := m.backedges.push ⟨b, c⟩ }, ?_, rfl, ?_⟩
    · rw [Numberer.record]
      simp only [hread, hidx]
      rfl
    · exact {
        next_size := h.next_size
        marks_size := h.marks_size
        marks := h.marks
        loopOf := by
          rw [hheaders]
          exact h.loopOf
        loopCount := by
          rw [hheaders]
          exact h.loopCount
        backedges := by rw [h.backedges]
        order := h.order }
  | none =>
    rw [if_neg (findIdx?_eq_none.mp hidx)] at hheaders
    refine ⟨{ m with
      backedges := m.backedges.push ⟨b, c⟩
      loopOf := m.loopOf.setIfInBounds c (some m.loopCount)
      loopCount := m.loopCount + 1 }, ?_, rfl, ?_⟩
    · rw [Numberer.record]
      simp only [hread, hidx]
      rfl
    · exact {
        next_size := h.next_size
        marks_size := h.marks_size
        marks := h.marks
        loopOf := fun d hd ↦ by
          rw [hheaders, List.findIdx?_append, getElem?_setIfInBounds_of_lt hlt, h.loopCount]
          split
          · rename_i hdc
            simp [hdc, hidx]
          · rename_i hdc
            rw [h.loopOf d hd]
            simp [Ne.symm hdc]
        loopCount := by rw [hheaders, h.loopCount, List.length_append, List.length_singleton]
        backedges := by rw [h.backedges]
        order := h.order }

private theorem pop (h : Discovers g s m) (hb : s.progress[b]? = some .active) (hnew : b ∉ s.order)
    (below : List Frame) : ∃ m', m.pop b below .visited1 = pure m' ∧ m'.stack = below ∧
      Discovers g (s.finish b) m' := by
  have hsize' : b < s.progress.size := (Array.getElem?_eq_some_iff.mp hb).1
  have hsize : b < m.marks.size := by
    have := h.marks b
    rw [hb] at this
    exact (Array.getElem?_eq_some_iff.mp this).1
  have hnext : b < m.next.size := by rwa [h.next_size, ← h.marks_size]
  refine ⟨_, by rw [Numberer.pop, Attempt.write_of_lt hnext, pure_bind, Attempt.write_of_lt hsize,
    pure_bind], rfl, ?_⟩
  exact {
    next_size := (Array.size_setIfInBounds ..).trans h.next_size
    marks_size := (Array.size_setIfInBounds ..).trans h.marks_size
    marks := fun d ↦ by
      rw [Discovery.finish, Discovery.mark, getElem?_setIfInBounds_of_lt hsize,
        getElem?_setIfInBounds_of_lt hsize', h.marks]
      split <;> rfl
    loopOf := h.loopOf
    loopCount := h.loopCount
    backedges := h.backedges
    order := h.order.push hnext hnew }

end Discovers

theorem push_of_mark {m : Numberer} {c : BlockIndex} {mark : Mark} (h : m.marks[c]? = some mark) :
    m.push g c mark = pure (m.entered g c) := by
  rw [push, Attempt.read_of_some h, pure_bind, if_pos rfl]

/-- The turns of the discovery search. -/
abbrev DiscoverGoes (g : Graph) : Numberer → Numberer → Prop :=
  Goes 0 fun _ ↦ discoverStep g

section Turns

variable {m m' : Numberer} {f : Frame} {below : List Frame} (hstack : m.stack = f :: below)

include hstack

private theorem turns_discoverEdge {c : BlockIndex} (hc : f.successors[f.index]? = some c)
    (hedge : (m.advanced f below).discoverEdge g f.block c = pure m') :
    Turns 0 (fun _ ↦ discoverStep g) m m' := by
  refine ⟨by simp [hstack], fun _ _ ↦ ?_⟩
  simp only [discoverStep, hstack, hc, hedge]

private theorem turns_discoverPop (hend : f.successors.length ≤ f.index)
    (hpop : m.pop f.block below .visited1 = pure m') :
    Turns 0 (fun _ ↦ discoverStep g) m m' := by
  refine ⟨by simp [hstack], fun _ _ ↦ ?_⟩
  simp only [discoverStep, hstack, List.getElem?_eq_none hend, hpop]

end Turns

open Discovery (Traced visit followEdge)

private theorem goes_edge {depth : Nat} {b c : BlockIndex} {s : Discovery} {m : Numberer} {i : Nat}
    {below : List Frame} (hm : Discovers g s m) (hc : c < g.blockCount)
    (hstack : m.stack = ⟨b, i, g.successors b⟩ :: below) (hget : (g.successors b)[i]? = some c)
    (hvisit : ∀ {m : Numberer}, s.progress[c]? = some .fresh → Discovers g s m →
      ∃ m', DiscoverGoes g (m.entered g c) m' ∧ m'.stack = m.stack ∧
        Discovers g (visit g depth c s) m') :
    ∃ m', DiscoverGoes g m m' ∧ m'.stack = ⟨b, i + 1, g.successors b⟩ :: below ∧
      Discovers g (followEdge g depth b s c) m' := by
  have hm₁ : Discovers g s (m.advanced ⟨b, i, g.successors b⟩ below) := hm.stack _
  obtain ⟨p, hp, hmark⟩ := hm₁.exists_mark hc
  have hread := Attempt.read_of_some hmark
  rw [followEdge]
  simp only [hp]
  -- the target is entered, noted as a header, or passed over
  cases p with
  | fresh =>
    obtain ⟨m', hgoes, hstack', hm'⟩ := hvisit hp hm₁
    refine ⟨m', .head (turns_discoverEdge hstack hget ?_) hgoes, hstack', hm'⟩
    rw [discoverEdge, hread]
    exact push_of_mark hmark
  | active =>
    obtain ⟨m', hrecord, hstack', hm'⟩ := hm₁.record hc b
    refine ⟨m', .single (turns_discoverEdge hstack hget ?_), hstack', hm'⟩
    rw [discoverEdge, hread]
    exact hrecord
  | done =>
    refine ⟨_, .single (turns_discoverEdge hstack hget ?_), rfl, hm₁⟩
    rw [discoverEdge, hread]
    rfl

private theorem goes_edges {depth : Nat} {b : BlockIndex} {path : List BlockIndex} (hg : g.Sound)
    (hvisit : ∀ {c : BlockIndex} {s : Discovery} {m : Numberer}, Traced g (b :: path) s →
      s.progress[c]? = some .fresh → g.blockCount ≤ depth + ((b :: path).length + s.order.length) →
      g.Arc b c → Discovers g s m → ∃ m', DiscoverGoes g (m.entered g c) m' ∧
        m'.stack = m.stack ∧ Discovers g (visit g depth c s) m') :
    ∀ {cs : List BlockIndex} {s : Discovery} {m : Numberer} {i : Nat} {below : List Frame},
      Traced g (b :: path) s → g.blockCount ≤ depth + ((b :: path).length + s.order.length) →
      Discovers g s m → m.stack = ⟨b, i, g.successors b⟩ :: below →
      (g.successors b).drop i = cs →
      ∃ m' j, DiscoverGoes g m m' ∧ m'.stack = ⟨b, j, g.successors b⟩ :: below ∧
        (g.successors b).length ≤ j ∧ Traced g (b :: path) (cs.foldl (followEdge g depth b) s) ∧
        Discovers g (cs.foldl (followEdge g depth b) s) m'
  | [], s, m, i, below, hs, _, hm, hstack, hdrop =>
    ⟨m, i, .refl, hstack, List.drop_eq_nil_iff.mp hdrop, hs, hm⟩
  | c :: cs, s, m, i, below, hs, hdepth, hm, hstack, hdrop => by
    have hget : (g.successors b)[i]? = some c := by
      rw [← List.head?_drop, hdrop]
      rfl
    have hrest : (g.successors b).drop (i + 1) = cs := by
      rw [← List.drop_drop, hdrop]
      rfl
    have harc : g.Arc b c := List.mem_of_getElem? hget
    obtain ⟨htraced, hgrows⟩ := Discovery.followEdge_traced hg hs hdepth harc
    have hlen := hgrows.order.length_le
    obtain ⟨m₁, hgoes, hstack₁, hm₁⟩ := goes_edge hm (hg.target_lt harc) hstack hget
      fun hfresh hm ↦ hvisit hs hfresh hdepth harc hm
    obtain ⟨m', j, hgoes', h⟩ := goes_edges hg hvisit htraced (by lia) hm₁ hstack₁ hrest
    exact ⟨m', j, hgoes.trans hgoes', h⟩

/-- A visit takes its block and everything that it puts above it off the stack again. -/
private theorem goes_visit (hg : g.Sound) :
    ∀ {depth : Nat} {b : BlockIndex} {path : List BlockIndex} {s : Discovery} {m : Numberer},
      Traced g path s → s.progress[b]? = some .fresh →
      g.blockCount ≤ depth + (path.length + s.order.length) →
      (b = 0 ∨ ∃ p ∈ path, g.Arc p b) → Discovers g s m →
      ∃ m', DiscoverGoes g (m.entered g b) m' ∧ m'.stack = m.stack ∧
        Discovers g (visit g depth b s) m' := by
  intro depth
  induction depth with
  | zero =>
    intro b path s m hs hb hdepth
    have := hs.length_lt hb
    lia
  | succ depth ih =>
    intro b path s m hs hb hdepth hparent hm
    have hlt : b < g.blockCount := hs.size_eq ▸ (Array.getElem?_eq_some_iff.mp hb).1
    have hdepth' : g.blockCount ≤ depth + ((b :: path).length + s.order.length) := by
      rw [List.length_cons]
      lia
    have hentered := hs.enter hb hparent
    obtain ⟨m₁, j, hgoes, hstack, hj, htraced, hm₁⟩ := goes_edges hg
      (fun hs hc hdepth harc hm ↦ ih hs hc hdepth (Or.inr ⟨b, List.mem_cons_self, harc⟩) hm)
      hentered hdepth' (hm.entered hlt) rfl (List.drop_zero)
    have hactive := (htraced.active_iff b).mpr List.mem_cons_self
    have hnew : b ∉ ((g.successors b).foldl (followEdge g depth b) (s.mark b .active)).order :=
      fun hmem ↦ by
        rw [(htraced.done_iff b).mpr hmem] at hactive
        cases hactive
    obtain ⟨m', hpop, hstack', hm'⟩ := hm₁.pop hactive hnew m.stack
    exact ⟨m', hgoes.tail (turns_discoverPop hstack hj hpop), hstack', hm'⟩

/-- The first search of a numberer is the discovery search. -/
theorem exists_goes_discovery (hg : g.Sound) (hpos : 0 < g.blockCount) :
    ∃ m, (start g.blockCount).push g 0 .unvisited = pure ((start g.blockCount).entered g 0) ∧
      DiscoverGoes g ((start g.blockCount).entered g 0) m ∧ m.stack = [] ∧
      Discovers g g.discovery m := by
  have hmark : (start g.blockCount).marks[0]? = some .unvisited := by
    rw [start, Array.getElem?_replicate, if_pos hpos]
  have hfresh : (Discovery.start g.blockCount).progress[0]? = some .fresh := by
    rw [Discovery.start, Array.getElem?_replicate, if_pos hpos]
  obtain ⟨m, hgoes, hstack, hm⟩ := goes_visit hg (Discovery.traced_start g) hfresh
    (Nat.le_add_right _ _) (Or.inl rfl) (discovers_start g)
  refine ⟨m, push_of_mark hmark, hgoes, hstack, ?_⟩
  rw [Graph.discovery, if_neg hpos.ne']
  exact hm

end Numberer

end Flowgraph
