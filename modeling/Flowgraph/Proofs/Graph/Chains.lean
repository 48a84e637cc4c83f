import Flowgraph.Proofs.Graph.Renaming
import Mathlib.Algebra.Group.Action.Defs
import Mathlib.Algebra.Order.BigOperators.Group.List
import Mathlib.Algebra.Order.Group.Nat
import Mathlib.Data.List.Induction

/-!
# Predecessor chains

A graph keeps its edges in one list, and the predecessors of a block are read off it. They can also
be kept as linked records: a record holds the source of an edge and the number of the record that
was added to the same block before it, and a block holds its newest record and the number of its
records. Adding an edge then takes one new record and one new head, and renumbering moves the heads
and renames the sources but touches no link.

A `Construction` carries the chains along with the graph through any sequence of calls that build
or renumber it, together with the blocks in the order in which their terminators were added. This
module proves that the three stay in agreement, whatever the calls are, and states what that says
about the tables of the graph.

## What the links mean

The record behind edge `e` links to `previousEdge? e`, the latest edge into the same block below
`e`. Edge numbers are never reused and renumbering does not change which edges lead to the same
block, so that the links need no maintenance. Following them from the newest record goes through
the numbers of all edges into the block, in reverse.

## The width of a link

The number of a record is kept in a signed word of 32 bits, and -1 says that there is none. Handles
of blocks are unsigned words, and a block can have two edges, so a graph may have more than 2 ^ 31
of them; nothing stops the number of a record from becoming negative then, and what reads such a
record fails. Everything about the graph itself, the heads and the records holds for every number of
edges, with the links as the words that the numbers come to. Where the words stand for the numbers,
that is, for graphs of up to 2 ^ 31 edges, the chains can be walked (`Represented.chain`), and one
edge more is too many (`Agrees.fault`).
-/

namespace Flowgraph

/-! ## Linked records

The tables as they are kept: one record for each edge of the graph, in the order in which the edges
came, and one head for each block. A walk along a chain reads record after record, and it is a fault
to read one that is not there. -/

/-- The word for the number of a record, or for none. A number from 2 ^ 31 on does not fit. -/
def linkTo : Option Nat → Int32
  | none => -1
  | some e => .ofNat e

/-- The record of an edge. -/
structure EdgeRecord where
  source : BlockIndex
  /-- The record that was added to the same block before this one. -/
  next : Int32
deriving DecidableEq

/-- Where the chain of a block starts. -/
structure ChainHead where
  newest : Int32
  /-- The number of records of the block. -/
  length : Nat
deriving DecidableEq

/-- The predecessor chains of all blocks. -/
structure Chains where
  heads : Array ChainHead
  records : Array EdgeRecord
deriving DecidableEq

namespace Chains

/-- Adds a block without predecessors. -/
def addBlock (c : Chains) : Chains := { c with heads := c.heads.push ⟨linkTo none, 0⟩ }

/-- Adds an edge: its record becomes the newest one of the target. -/
def link (source : BlockIndex) (c : Chains) (target : BlockIndex) : Chains where
  heads := c.heads.modify target fun head ↦ ⟨linkTo (some c.records.size), head.length + 1⟩
  records := c.records.push
    ⟨source, (c.heads[target]?.map ChainHead.newest).getD (linkTo none)⟩

/-- Makes block `perm[i]` block `i`. The links stay as they are. -/
def renumber (c : Chains) (perm : List BlockIndex) : Chains where
  heads := (perm.map fun b ↦ c.heads[b]?.getD ⟨linkTo none, 0⟩).toArray
  records := c.records.map fun r ↦ { r with source := perm.idxOf r.source }

/-- The record that a link leads to. -/
def record? (c : Chains) (e : Int32) : Option EdgeRecord :=
  if e.toInt < 0 then none else c.records[e.toInt.toNat]?

/-- Follows the links from a record and fills the places of a list with the sources, from the last
place on; a place that is left over holds the block 0. It is a fault to read a record that is not
there or to run out of places. -/
def fill (c : Chains) : Nat → Int32 → List BlockIndex → Except Breach (List BlockIndex)
  | 0, e, out => if e = linkTo none then .ok out else .error .fault
  | n + 1, e, out =>
    if e = linkTo none then .ok (List.replicate (n + 1) 0 ++ out)
    else
      match c.record? e with
      | some r => c.fill n r.next (r.source :: out)
      | none => .error .fault

def predecessors (c : Chains) (b : BlockIndex) : Except Breach (List BlockIndex) :=
  match c.heads[b]? with
  | some head => c.fill head.length head.newest []
  | none => .error (.blockOutOfRange b c.heads.size)

/-- Following the links from a record goes through the listed records and then ends. -/
inductive Follows (c : Chains) : Int32 → List Nat → Prop
  | done : Follows c (linkTo none) []
  | next {e : Int32} {n : Nat} {r : EdgeRecord} {l : List Nat} :
    e.toInt = n → c.records[n]? = some r → Follows c r.next l → Follows c e (n :: l)

private theorem Follows.fill_eq {c : Chains} {e : Int32} {l : List Nat} (h : c.Follows e l) :
    ∀ out : List BlockIndex, c.fill l.length e out
      = .ok ((l.filterMap fun n ↦ c.records[n]?.map EdgeRecord.source).reverse ++ out) := by
  induction h with
  | done => exact fun _ ↦ rfl
  | @next e n r l he hr _ ih =>
    intro out
    have hne : e ≠ linkTo none := by
      rintro rfl
      rw [linkTo] at he
      exact absurd he (by lia)
    have hrecord : c.record? e = some r := by
      rw [record?, he, if_neg (by lia), Int.toNat_natCast, hr]
    rw [List.length_cons, fill, if_neg hne, hrecord]
    simp [ih, hr]

private theorem fill_eq_fault (c : Chains) {e : Int32} (he : e.toInt < 0) (hne : e ≠ linkTo none)
    (n : Nat) (out : List BlockIndex) : c.fill n e out = .error .fault := by
  cases n with
  | zero => rw [fill, if_neg hne]
  | succ n => rw [fill, if_neg hne, record?, if_pos he]

end Chains

private theorem toInt_linkTo {e : Nat} (he : e < 2 ^ 31) : (linkTo (some e)).toInt = e :=
  Int32.toInt_ofNat_of_lt he

/-! ## Constructions

A call is one of the four ways to build or renumber a graph. The order in which blocks are closed is
not kept by the graph; it is what the order of predecessors is measured by. -/

/-- A call that builds or renumbers a graph. -/
inductive Call where
  | addBlock (kind : BlockKind) (deferred : Bool)
  | bind (b : BlockIndex)
  | addOperation (op : Operation)
  | reorder (perm : List BlockIndex)

/-- A graph with its predecessor chains and the blocks in the order in which their terminators were
added. -/
structure Construction where
  graph : Graph
  chains : Chains
  closed : List BlockIndex
deriving DecidableEq

namespace Construction

/-- The construction without blocks. -/
def start (name : ByteArray) : Construction := ⟨.empty name, ⟨#[], #[]⟩, []⟩

/-- Block `b` was closed by a terminator with these successors. -/
def close (c : Construction) (b : BlockIndex) (successors : List BlockIndex) : Construction :=
  { c with
    chains := successors.foldl (Chains.link b) c.chains
    closed := c.closed ++ [b] }

def call (c : Construction) : Call → Except Breach Construction
  | .addBlock kind deferred => do
    let graph ← c.graph.addBlock kind deferred
    return { c with graph, chains := c.chains.addBlock }
  | .bind b => do
    let graph ← c.graph.bind b
    return { c with graph }
  | .addOperation op => do
    let graph ← c.graph.addOperation op
    match c.graph.bound with
    | some b => return if op.isTerminator then { c.close b op.successors with graph }
        else { c with graph }
    | none => return { c with graph }
  | .reorder perm => do
    let graph ← c.graph.reorder perm
    return ⟨graph, c.chains.renumber perm, c.closed.map perm.idxOf⟩

/-- Makes calls one after the other. -/
def calls (c : Construction) (l : List Call) : Except Breach Construction := l.foldlM call c

end Construction

/-! ## Incoming edges by number

The numbers of the edges into a block rise, and the previous edge is the last one below. A new edge
is the last one into its target and concerns no other block, and renaming the blocks changes no
number. -/

namespace Graph

variable {g g' : Graph} {b p t : BlockIndex} {e : Nat}

theorem mem_incoming : e ∈ g.incoming b ↔ ∃ edge, g.edges[e]? = some edge ∧ edge.target = b := by
  rw [incoming, List.mem_filter, List.mem_range, beq_iff_eq, Option.map_eq_some_iff,
    and_iff_right_iff_imp]
  rintro ⟨edge, hedge, -⟩
  exact (Array.getElem?_eq_some_iff.mp hedge).1

theorem lt_of_mem_incoming (h : e ∈ g.incoming b) : e < g.edges.size := by
  obtain ⟨edge, hedge, -⟩ := mem_incoming.mp h
  exact (Array.getElem?_eq_some_iff.mp hedge).1

private theorem pairwise_incoming (g : Graph) (b : BlockIndex) : (g.incoming b).Pairwise (· < ·) :=
  List.pairwise_lt_range.filter _

theorem incoming_congr (h : g'.edges = g.edges) (b : BlockIndex) :
    g'.incoming b = g.incoming b := by
  rw [incoming, incoming, h]

theorem previousEdge?_congr (h : g'.edges = g.edges) (e : Nat) :
    g'.previousEdge? e = g.previousEdge? e := by
  rw [previousEdge?, previousEdge?, h]
  cases g.edges[e]? with
  | none => rfl
  | some edge => simp only [incoming_congr h]

private theorem map_source_incoming (g : Graph) (b : BlockIndex) :
    (g.incoming b).map (fun e ↦ g.edges[e]?.map Edge.source) = (g.predecessors b).map some := by
  have hlist : ∀ l : List Edge,
      ((List.range l.length).filter fun e ↦ (l[e]?.map Edge.target) == some b).map
        (fun e ↦ l[e]?.map Edge.source)
        = ((l.filter (·.target == b)).map Edge.source).map some := by
    intro l
    induction l using List.reverseRecOn with
    | nil => rfl
    | append_singleton l edge ih =>
      have hold : ∀ e ∈ List.range l.length, (l ++ [edge])[e]? = l[e]? := fun e he ↦
        List.getElem?_append_left (List.mem_range.mp he)
      rw [List.length_append, List.length_singleton, List.range_succ, List.filter_append,
        List.filter_append, List.map_append, List.map_append, List.map_append, ← ih]
      congr 1
      · rw [List.filter_congr fun e he ↦ by rw [hold e he]]
        exact List.map_congr_left fun e he ↦ by rw [hold e (List.mem_filter.mp he).1]
      · by_cases hb : edge.target = b <;> simp [hb]
  have := hlist g.edges.toList
  simp only [Array.length_toList, Array.getElem?_toList] at this
  exact this

section Push

variable (g p t)

/-- A new edge is the last one into its target. -/
theorem incoming_push (b : BlockIndex) :
    incoming { g with edges := g.edges.push ⟨p, t⟩ } b
      = g.incoming b ++ if t = b then [g.edges.size] else [] := by
  rw [incoming, incoming, Array.size_push, List.range_succ, List.filter_append]
  congr 1
  · refine List.filter_congr fun e he ↦ ?_
    rw [Array.getElem?_push_lt (List.mem_range.mp he), Array.getElem?_eq_getElem]
  · by_cases ht : t = b <;> simp [ht]

private theorem previousEdge?_push_self :
    previousEdge? { g with edges := g.edges.push ⟨p, t⟩ } g.edges.size
      = (g.incoming t).getLast? := by
  simp only [previousEdge?, Array.getElem?_push_size, incoming_push]
  rw [if_pos trivial, List.filter_append, List.filter_eq_self.mpr fun e he ↦
    decide_eq_true (lt_of_mem_incoming he), List.filter_cons_of_neg (by simp), List.filter_nil,
    List.append_nil]

private theorem previousEdge?_push_of_lt (he : e < g.edges.size) :
    previousEdge? { g with edges := g.edges.push ⟨p, t⟩ } e = g.previousEdge? e := by
  have hedge : (g.edges.push ⟨p, t⟩)[e]? = g.edges[e]? := by
    rw [Array.getElem?_push_lt he, Array.getElem?_eq_getElem]
  simp only [previousEdge?, hedge, incoming_push]
  rw [Array.getElem?_eq_getElem he]
  simp only [List.filter_append]
  split
  · rw [List.filter_cons_of_neg (by simp; lia), List.filter_nil, List.append_nil]
  · rw [List.filter_nil, List.append_nil]

end Push

end Graph

namespace Graph.Renamed

variable {g g' : Graph} {β : BlockIndex → BlockIndex} {ω : OpIndex → OpIndex}
  (h : Renamed g g' β ω) (hg : g.Sound)

include h

theorem getElem?_edges (e : Nat) :
    g'.edges[e]? = g.edges[e]?.map fun edge ↦ ⟨β edge.source, β edge.target⟩ := by
  rw [← Array.getElem?_toList, h.edges, List.getElem?_map, Array.getElem?_toList]

include hg

/-- Renaming keeps the numbers of the edges into a block. -/
theorem incoming_eq {b : BlockIndex} (hb : b < g.blockCount) :
    g'.incoming (β b) = g.incoming b := by
  have hsize : g'.edges.size = g.edges.size := by
    rw [← Array.length_toList, h.edges, List.length_map, Array.length_toList]
  rw [incoming, incoming, hsize]
  refine List.filter_congr fun e he ↦ ?_
  rw [h.getElem?_edges, Array.getElem?_eq_getElem (List.mem_range.mp he), Option.map_some,
    Option.map_some, Option.map_some, Bool.eq_iff_iff, beq_iff_eq, beq_iff_eq, Option.some.injEq,
    Option.some.injEq]
  have hlt := (hg.edge_lt (Array.getElem_mem_toList (List.mem_range.mp he))).2
  exact ⟨h.block_inj hlt hb, congrArg β⟩

private theorem previousEdge?_eq (e : Nat) : g'.previousEdge? e = g.previousEdge? e := by
  rw [previousEdge?, previousEdge?, h.getElem?_edges]
  cases he : g.edges[e]? with
  | none => rfl
  | some edge =>
    have hlt := (hg.edge_lt (Array.mem_toList_iff.mpr (Array.mem_of_getElem? he))).2
    simp only [Option.map_some, h.incoming_eq hg hlt]

end Graph.Renamed

/-! ## Chains that agree with a graph

`Linked` says of every head and every record what it has to do with the edges of the graph. Adding a
block, adding the edges of a terminator and renumbering keep it. From it follow the walks along
chains, for as many edges as there are words for. -/

/-- The chains hold the edges of a graph. -/
structure Chains.Linked (g : Graph) (c : Chains) : Prop where
  heads_size : c.heads.size = g.blockCount
  head : ∀ {b : BlockIndex} {head : ChainHead}, c.heads[b]? = some head →
    head.newest = linkTo (g.incoming b).getLast? ∧ head.length = (g.incoming b).length
  sources : c.records.toList.map EdgeRecord.source = g.edges.toList.map Edge.source
  next : ∀ {e : Nat} {r : EdgeRecord}, c.records[e]? = some r → r.next = linkTo (g.previousEdge? e)

namespace Chains.Linked

variable {g g' : Graph} {c : Chains}

private theorem empty (name : ByteArray) : Linked (Graph.empty name) ⟨#[], #[]⟩ :=
  ⟨rfl, by simp, rfl, by simp⟩

variable (h : c.Linked g)

include h

theorem records_size : c.records.size = g.edges.size := by
  have := congrArg List.length h.sources
  simpa using this

private theorem source_eq (e : Nat) :
    c.records[e]?.map EdgeRecord.source = g.edges[e]?.map Edge.source := by
  rw [← Array.getElem?_toList, ← Array.getElem?_toList, ← List.getElem?_map, h.sources,
    List.getElem?_map]

theorem congr (hedges : g'.edges = g.edges) (hcount : g'.blockCount = g.blockCount) :
    c.Linked g' where
  heads_size := h.heads_size.trans hcount.symm
  head hhead := by
    rw [Graph.incoming_congr hedges]
    exact h.head hhead
  sources := by rw [hedges, h.sources]
  next hr := by
    rw [Graph.previousEdge?_congr hedges]
    exact h.next hr

private theorem addBlock (hg : g.Sound) {kind : BlockKind} {deferred : Bool}
    (hadd : g.addBlock kind deferred = .ok g') : c.addBlock.Linked g' := by
  obtain ⟨-, rfl⟩ := Graph.addBlock_eq_ok hadd
  exact {
    heads_size := by
      rw [Chains.addBlock, Array.size_push, h.heads_size, Graph.blockCount, Graph.blockCount,
        Array.size_push]
    head := fun {b head} hhead ↦ by
      change _ = linkTo (g.incoming b).getLast? ∧ _ = (g.incoming b).length
      rw [Chains.addBlock, Array.getElem?_push] at hhead
      split at hhead
      · -- no edge leads to the new block yet
        rename_i hb
        cases hhead
        have hnil : g.incoming b = [] := List.eq_nil_iff_forall_not_mem.mpr fun e he ↦ by
          obtain ⟨edge, hedge, htarget⟩ := Graph.mem_incoming.mp he
          have hlt := (hg.edge_lt (Array.mem_toList_iff.mpr (Array.mem_of_getElem? hedge))).2
          rw [htarget, hb, h.heads_size] at hlt
          exact absurd hlt (Nat.lt_irrefl _)
        simp [hnil]
      · exact h.head hhead
    sources := h.sources
    next := fun hr ↦ (h.next hr).trans (congrArg linkTo (Graph.previousEdge?_congr rfl _)) }

private theorem link (p : BlockIndex) {t : BlockIndex} (ht : t < g.blockCount) :
    (c.link p t).Linked { g with edges := g.edges.push ⟨p, t⟩ } := by
  obtain ⟨head, hhead⟩ : ∃ head, c.heads[t]? = some head :=
    ⟨_, Array.getElem?_eq_getElem (h.heads_size ▸ ht)⟩
  have hsize := h.records_size
  exact {
    heads_size := by
      rw [Chains.link, Array.size_modify]
      exact h.heads_size
    head := fun {b head'} hhead' ↦ by
      rw [Chains.link, Array.getElem?_modify] at hhead'
      rw [Graph.incoming_push]
      split at hhead'
      · rename_i hb
        subst hb
        rw [hhead, Option.map_some, Option.some.injEq] at hhead'
        rw [← hhead', if_pos rfl, hsize, (h.head hhead).2]
        simp
      · rename_i hb
        rw [if_neg hb, List.append_nil]
        exact h.head hhead'
    sources := by
      rw [Chains.link, Array.toList_push, Array.toList_push, List.map_append, List.map_append,
        h.sources]
      rfl
    next := fun {e r} hr ↦ by
      rw [Chains.link, Array.getElem?_push] at hr
      split at hr
      · rename_i he
        cases hr
        rw [he, hsize, Graph.previousEdge?_push_self, hhead]
        exact (h.head hhead).1
      · have hlt := (Array.getElem?_eq_some_iff.mp hr).1
        rw [Graph.previousEdge?_push_of_lt g p t (hsize ▸ hlt)]
        exact h.next hr }

omit h in
private theorem links (p : BlockIndex) : ∀ {ts : List BlockIndex} {g : Graph} {c : Chains},
    c.Linked g → (∀ t ∈ ts, t < g.blockCount) →
      (ts.foldl (Chains.link p) c).Linked
        { g with edges := g.edges ++ (ts.map (Edge.mk p)).toArray } := by
  intro ts
  induction ts with
  | nil => exact fun h _ ↦ h.congr (by simp) rfl
  | cons t ts ih =>
    intro g c h hts
    rw [List.forall_mem_cons] at hts
    exact (ih (h.link p hts.1) hts.2).congr (by simp) rfl

private theorem renumber (hg : g.Sound) {perm : List BlockIndex}
    (hreorder : g.reorder perm = .ok g') : (c.renumber perm).Linked g' := by
  obtain ⟨-, hperm, -⟩ := Graph.of_reorder_ok hg hreorder
  have hren := Graph.reorder_renamed hg hreorder
  exact {
    heads_size := by
      rw [Chains.renumber, List.size_toArray, List.length_map, hperm.length_eq, List.length_range,
        hren.blockCount_eq]
    head := fun {b' head} hhead ↦ by
      have hlt : b' < perm.length := by
        have := (Array.getElem?_eq_some_iff.mp hhead).1
        rwa [Chains.renumber, List.size_toArray, List.length_map] at this
      rw [hperm.length_eq, List.length_range] at hlt
      obtain ⟨b, hb, rfl⟩ := hren.block_surj hlt
      rw [hren.incoming_eq hg hb]
      rw [Chains.renumber, List.getElem?_toArray, List.getElem?_map,
        List.getElem?_idxOf (hperm.mem_iff.mpr (List.mem_range.mpr hb)), Option.map_some,
        Array.getElem?_eq_getElem (h.heads_size ▸ hb), Option.getD_some] at hhead
      exact h.head ((Array.getElem?_eq_getElem (h.heads_size ▸ hb)).trans hhead)
    sources := by
      have hmap := congrArg (List.map perm.idxOf) h.sources
      rw [List.map_map, List.map_map] at hmap
      rw [Chains.renumber, Array.toList_map, hren.edges, List.map_map, List.map_map]
      exact hmap
    next := fun {e r'} hr ↦ by
      rw [Chains.renumber, Array.getElem?_map, Option.map_eq_some_iff] at hr
      obtain ⟨r, hr, rfl⟩ := hr
      exact (h.next hr).trans (congrArg linkTo (hren.previousEdge?_eq hg e).symm) }

/-- From the latest of the first edges into a block, the links go through all of them. -/
private theorem follows_of_prefix (hfits : g.edges.size ≤ 2 ^ 31) {b : BlockIndex} :
    ∀ {l m : List Nat}, g.incoming b = l ++ m → c.Follows (linkTo l.getLast?) l.reverse := by
  intro l
  induction l using List.reverseRecOn with
  | nil => exact fun _ ↦ .done
  | append_singleton l e ih =>
    intro m hsplit
    rw [List.append_assoc, List.singleton_append] at hsplit
    have hmem : e ∈ g.incoming b := hsplit ▸ List.mem_append_right _ List.mem_cons_self
    obtain ⟨edge, hedge, htarget⟩ := Graph.mem_incoming.mp hmem
    obtain ⟨r, hr⟩ : ∃ r, c.records[e]? = some r :=
      ⟨_, Array.getElem?_eq_getElem (h.records_size ▸ Graph.lt_of_mem_incoming hmem)⟩
    -- the edges come in order, so that the ones below `e` are those in front of it
    have hsorted := Graph.pairwise_incoming g b
    rw [hsplit, List.pairwise_append, List.pairwise_cons] at hsorted
    obtain ⟨-, ⟨hbehind, -⟩, hbefore⟩ := hsorted
    have hprevious : g.previousEdge? e = l.getLast? := by
      have hkeep : l.filter (fun x ↦ decide (x < e)) = l := List.filter_eq_self.mpr fun x hx ↦
        decide_eq_true (hbefore x hx e List.mem_cons_self)
      have hdrop : m.filter (fun x ↦ decide (x < e)) = [] :=
        List.filter_eq_nil_iff.mpr fun x hx ↦ by
        simpa using Nat.le_of_lt (hbehind x hx)
      rw [Graph.previousEdge?, hedge]
      simp only [htarget, hsplit]
      rw [List.filter_append, hkeep, List.filter_cons_of_neg (by simp), hdrop, List.append_nil]
    rw [List.getLast?_concat, List.reverse_append, List.reverse_singleton, List.singleton_append]
    refine .next (toInt_linkTo ((Graph.lt_of_mem_incoming hmem).trans_le hfits)) hr ?_
    rw [h.next hr, hprevious]
    exact ih hsplit

/-- The chain of a block is finite and goes through the edges into the block, latest first. -/
theorem follows (hfits : g.edges.size ≤ 2 ^ 31) {b : BlockIndex} {head : ChainHead}
    (hhead : c.heads[b]? = some head) : c.Follows head.newest (g.incoming b).reverse := by
  rw [(h.head hhead).1]
  exact h.follows_of_prefix hfits (List.append_nil _).symm

theorem sources_incoming (b : BlockIndex) :
    (g.incoming b).map (fun e ↦ c.records[e]?.map EdgeRecord.source)
      = (g.predecessors b).map some := by
  rw [← Graph.map_source_incoming]
  exact List.map_congr_left fun e _ ↦ h.source_eq e

private theorem predecessors_eq (hfits : g.edges.size ≤ 2 ^ 31) {b : BlockIndex}
    (hb : b < g.blockCount) : c.predecessors b = .ok (g.predecessors b) := by
  obtain ⟨head, hhead⟩ : ∃ head, c.heads[b]? = some head :=
    ⟨_, Array.getElem?_eq_getElem (h.heads_size ▸ hb)⟩
  have hfill := (h.follows hfits hhead).fill_eq []
  have hsources : (g.incoming b).filterMap (fun e ↦ c.records[e]?.map EdgeRecord.source)
      = g.predecessors b := by
    have hmap := congrArg (List.filterMap id) (h.sources_incoming b)
    rwa [List.filterMap_map, List.filterMap_map, Function.id_comp, Function.id_comp,
      List.filterMap_some] at hmap
  rw [Chains.predecessors, hhead]
  change c.fill head.length head.newest [] = _
  rw [List.length_reverse, ← (h.head hhead).2, List.filterMap_reverse, List.reverse_reverse,
    hsources, List.append_nil] at hfill
  exact hfill

end Chains.Linked

/-! ## The order in which blocks are closed

A block is closed once, by its terminator, and its edges come right then. So the edges of the graph
are those of the closed blocks, in the order in which they were closed, and the sources of the edges
into a block stand in this order too. -/

namespace Graph

variable {g g' : Graph} {closed : List BlockIndex}

/-- The edges of the listed blocks, the true edge of a branch before the false one. -/
def edgesFrom (g : Graph) (closed : List BlockIndex) : List Edge :=
  closed.flatMap fun p ↦ (g.successors p).map (Edge.mk p)

theorem edgesFrom_congr (h : ∀ p ∈ closed, g'.successors p = g.successors p) :
    g'.edgesFrom closed = g.edgesFrom closed := by
  rw [edgesFrom, edgesFrom]
  exact List.flatMap_congr fun p hp ↦ by rw [h p hp]

private theorem length_successors_le (g : Graph) (b : BlockIndex) :
    (g.successors b).length ≤ 2 := by
  rw [successors]
  split
  · exact Operation.length_successors_le _
  · exact Nat.zero_le 2

private theorem predecessors_of_edgesFrom (h : g.edges.toList = g.edgesFrom closed)
    (b : BlockIndex) :
    g.predecessors b = closed.flatMap fun p ↦ List.replicate ((g.successors p).count b) p := by
  rw [predecessors, h, edgesFrom, List.filter_flatMap, List.map_flatMap]
  refine List.flatMap_congr fun p _ ↦ ?_
  rw [List.filter_map, List.map_map, List.eq_replicate_iff, List.length_map,
    List.count_eq_length_filter]
  refine ⟨rfl, fun q hq ↦ ?_⟩
  obtain ⟨t, -, rfl⟩ := List.mem_map.mp hq
  rfl

/-- The closed blocks of a graph are the listed ones, and its edges are theirs, in order. -/
structure ClosedBy (g : Graph) (closed : List BlockIndex) : Prop where
  nodup : closed.Nodup
  mem_iff : ∀ {p : BlockIndex}, p ∈ closed ↔ (g.span p).toList ≠ [] ∧ g.bound ≠ some p
  edges_eq : g.edges.toList = g.edgesFrom closed

private theorem closedBy_empty (name : ByteArray) : (Graph.empty name).ClosedBy [] where
  nodup := .nil
  mem_iff := by simp [Graph.empty, span]
  edges_eq := rfl

namespace ClosedBy

variable (h : g.ClosedBy closed) (hg : g.Sound)

include h

theorem lt {p : BlockIndex} (hp : p ∈ closed) : p < g.blockCount := by
  obtain ⟨i, hi⟩ := List.exists_mem_of_ne_nil _ (h.mem_iff.mp hp).1
  exact lt_blockCount_of_mem_span hi

private theorem edges_le : g.edges.size ≤ 2 * g.blockCount := by
  have htwo : ∀ n ∈ closed.map fun p ↦ ((g.successors p).map (Edge.mk p)).length, n ≤ 2 := by
    simp only [List.forall_mem_map, List.length_map]
    exact fun p _ ↦ length_successors_le g p
  have hsum := List.sum_le_card_nsmul _ _ htwo
  rw [List.length_map, smul_eq_mul] at hsum
  have hclosed : closed.length ≤ (List.range g.blockCount).length :=
    (h.nodup.subperm fun p hp ↦ List.mem_range.mpr (h.lt hp)).length_le
  rw [List.length_range] at hclosed
  rw [← Array.length_toList, h.edges_eq, edgesFrom, List.length_flatMap]
  lia

private theorem addBlock {kind : BlockKind} {deferred : Bool}
    (hadd : g.addBlock kind deferred = .ok g') : g'.ClosedBy closed := by
  obtain ⟨-, rfl⟩ := addBlock_eq_ok hadd
  have hspan := span_push_empty g kind deferred
  have hsucc : ∀ p, successors { g with blocks := g.blocks.push ⟨kind, deferred, none⟩ } p
      = g.successors p := fun p ↦ successors_congr rfl (hspan p)
  refine ⟨h.nodup, fun {p} ↦ by rw [hspan]; exact h.mem_iff, ?_⟩
  exact h.edges_eq.trans (edgesFrom_congr fun p _ ↦ hsucc p).symm

private theorem bind {b : BlockIndex} (hbind : g.bind b = .ok g') : g'.ClosedBy closed := by
  obtain ⟨hbound, ⟨blk, hblk, hspan⟩, rfl⟩ := bind_eq_ok hbind
  have hempty : (g.span b).toList = [] := by
    rw [span_of_block hblk, Block.span, hspan]
    rfl
  refine ⟨h.nodup, fun {p} ↦ ?_, h.edges_eq⟩
  rw [h.mem_iff, hbound]
  refine and_congr_right fun hne ↦ iff_of_true (by simp) fun heq ↦ ?_
  cases heq
  exact hne hempty

include hg

private theorem addOperation {op : Operation} {b : BlockIndex} (hb : g.bound = some b)
    (hadd : g.addOperation op = .ok g') :
    g'.ClosedBy (if op.isTerminator then closed ++ [b] else closed) := by
  obtain ⟨b', hb', -, -, rfl⟩ := addOperation_eq_ok hadd
  cases hb.symm.trans hb'
  have hopen : b ∉ closed := fun hmem ↦ (h.mem_iff.mp hmem).2 hb
  have hne : ∀ {p}, p ∈ closed → p ≠ b := fun hp heq ↦ hopen (heq ▸ hp)
  have hself : ((g.appended b op).span b).toList ≠ [] := by
    rw [appended_span_toList_self op hg hb]
    simp
  have hedges : (g.appended b op).edges.toList
      = (g.appended b op).edgesFrom closed ++ op.successors.map (Edge.mk b) := by
    rw [edgesFrom_congr fun p hp ↦ appended_successors_of_ne hg (hne hp), ← h.edges_eq]
    simp [appended]
  have hmem : ∀ {p}, p ≠ b → (p ∈ closed ↔ ((g.appended b op).span p).toList ≠ []) := by
    intro p hp
    rw [appended_span_of_ne hp, h.mem_iff, hb]
    exact and_iff_left fun heq ↦ hp (Option.some.inj heq).symm
  by_cases hend : op.isTerminator = true
  · rw [if_pos hend]
    have hbound : (g.appended b op).bound = none := by rw [appended, if_pos hend]
    refine ⟨List.concat_eq_append ▸ h.nodup.concat hopen, fun {p} ↦ ?_, ?_⟩
    · rw [List.mem_append, List.mem_singleton, hbound, and_iff_left (by simp)]
      by_cases hp : p = b
      · exact iff_of_true (Or.inr hp) (hp ▸ hself)
      · rw [hmem hp, or_iff_left hp]
    · rw [hedges, edgesFrom, edgesFrom, List.flatMap_append, List.flatMap_singleton,
        appended_successors_self op hg hb]
  · rw [if_neg hend]
    have hbound : (g.appended b op).bound = some b := by rw [appended, if_neg hend]
    refine ⟨h.nodup, fun {p} ↦ ?_, ?_⟩
    · rw [hbound]
      by_cases hp : p = b
      · subst hp
        exact iff_of_false hopen fun hpos ↦ hpos.2 rfl
      · rw [hmem hp]
        exact (and_iff_left fun heq ↦ hp (Option.some.inj heq).symm).symm
    · rw [hedges, Operation.successors_eq_nil (by simpa using hend), List.map_nil, List.append_nil]

private theorem reorder {perm : List BlockIndex} (hreorder : g.reorder perm = .ok g') :
    g'.ClosedBy (closed.map perm.idxOf) := by
  have hren := reorder_renamed hg hreorder
  refine ⟨h.nodup.map_on fun p hp q hq ↦ hren.block_inj (h.lt hp) (h.lt hq), fun {p'} ↦ ?_, ?_⟩
  · rw [hren.bound_eq', and_iff_left (by simp), List.mem_map]
    constructor
    · rintro ⟨p, hp, rfl⟩
      rw [hren.span (h.lt hp)]
      exact fun hnil ↦ (h.mem_iff.mp hp).1 (List.map_eq_nil_iff.mp hnil)
    · intro hne
      obtain ⟨i, hi⟩ := List.exists_mem_of_ne_nil _ hne
      obtain ⟨p, hp, rfl⟩ := hren.block_surj (hren.blockCount_eq ▸ lt_blockCount_of_mem_span hi)
      refine ⟨p, h.mem_iff.mpr ⟨fun hnil ↦ hne ?_, by rw [hren.bound_eq]; simp⟩, rfl⟩
      rw [hren.span hp, hnil, List.map_nil]
  · rw [hren.edges, h.edges_eq, edgesFrom, edgesFrom, List.map_flatMap, List.flatMap_map]
    refine List.flatMap_congr fun p hp ↦ ?_
    rw [hren.successors_eq hg (h.lt hp), List.map_map, List.map_map]
    rfl

end ClosedBy

end Graph

/-! ## Calls

One call keeps the graph, the chains and the order of closing in agreement, hence so does any
sequence. `Represented` is what the agreement says about the tables, in terms of the graph alone. -/

namespace Construction

variable {c c' : Construction}

/-- The graph, its chains and the order of closing tell the same story. -/
structure Agrees (c : Construction) : Prop where
  built : c.graph.Built
  linked : c.chains.Linked c.graph
  closedBy : c.graph.ClosedBy c.closed

theorem agrees_start (name : ByteArray) : (start name).Agrees :=
  ⟨.empty name, .empty name, Graph.closedBy_empty name⟩

private theorem Agrees.call (h : c.Agrees) {k : Call} (hcall : c.call k = .ok c') : c'.Agrees := by
  have hg := h.built.sound
  cases k with
  | addBlock kind deferred =>
    obtain ⟨g', hadd, hcall⟩ := exists_of_bind_ok hcall
    cases hcall
    exact ⟨h.built.addBlock hadd, h.linked.addBlock hg hadd, h.closedBy.addBlock hadd⟩
  | bind b =>
    obtain ⟨g', hbind, hcall⟩ := exists_of_bind_ok hcall
    cases hcall
    refine ⟨h.built.bind hbind, ?_, h.closedBy.bind hbind⟩
    obtain ⟨-, -, rfl⟩ := Graph.bind_eq_ok hbind
    exact h.linked.congr rfl rfl
  | addOperation op =>
    obtain ⟨g', hadd, hcall⟩ := exists_of_bind_ok hcall
    obtain ⟨b, hb, -, hts, hg'⟩ := Graph.addOperation_eq_ok hadd
    have hclosedBy := h.closedBy.addOperation hg hb hadd
    have hlinks := h.linked.links b hts
    simp only [hb] at hcall
    by_cases hend : op.isTerminator = true
    · rw [if_pos hend] at hcall hclosedBy
      cases hcall
      exact ⟨h.built.addOperation hadd,
        hlinks.congr (by rw [hg', Graph.appended]) (by rw [hg', Graph.appended_blockCount]; rfl),
        hclosedBy⟩
    · rw [if_neg hend] at hcall hclosedBy
      cases hcall
      rw [Operation.successors_eq_nil (by simpa using hend), List.foldl_nil] at hlinks
      refine ⟨h.built.addOperation hadd, h.linked.congr ?_ ?_, hclosedBy⟩
      · simp [hg', Graph.appended, Operation.successors_eq_nil (by simpa using hend)]
      · rw [hg', Graph.appended_blockCount]
  | reorder perm =>
    obtain ⟨g', hreorder, hcall⟩ := exists_of_bind_ok hcall
    cases hcall
    exact ⟨h.built.reorder hreorder, h.linked.renumber hg hreorder,
      h.closedBy.reorder hg hreorder⟩

/-- Any sequence of calls keeps the agreement. -/
theorem Agrees.calls (h : c.Agrees) {l : List Call} (hcalls : c.calls l = .ok c') : c'.Agrees :=
  foldlM_keeps (fun h hcall ↦ h.call hcall) h hcalls

/-- How the tables of a graph represent its blocks and edges. -/
structure Represented (c : Construction) : Prop where
  /-- An operation is in the range of a block just if the block owns it. -/
  blockOf_iff : ∀ i b, c.graph.blockOf i = .ok b ↔ i ∈ (c.graph.span b).toList
  /-- Every operation is in the range of exactly one block. -/
  exists_unique : ∀ i < c.graph.opCount,
    ∃! b, b < c.graph.blockCount ∧ i ∈ (c.graph.span b).toList
  /-- The ranges hold operations of the graph only. -/
  span_lt : ∀ b, ∀ i ∈ (c.graph.span b).toList, i < c.graph.opCount
  /-- A block that is not bound is empty, or the last of its operations is its only terminator. -/
  closed_block : ∀ b, c.graph.bound ≠ some b → (c.graph.span b).toList = [] ∨
    ∃ i op, (c.graph.span b).last? = some i ∧ c.graph.ops[i]? = some op ∧
      op.isTerminator = true ∧ ∀ j op', j ∈ (c.graph.span b).toList →
        c.graph.ops[j]? = some op' → op'.isTerminator = true → j = i
  /-- The bound block has no terminator yet. -/
  open_block : ∀ b, c.graph.bound = some b → b < c.graph.blockCount ∧
    ∀ i op, i ∈ (c.graph.span b).toList → c.graph.ops[i]? = some op → op.isTerminator = false
  /-- The closed blocks, each once. -/
  nodup_closed : c.closed.Nodup
  mem_closed : ∀ b, b ∈ c.closed ↔ (c.graph.span b).toList ≠ [] ∧ c.graph.bound ≠ some b
  /-- The edges stand in the order in which the blocks were closed, the true edge of a branch before
  the false one. -/
  edges_eq : c.graph.edges.toList
    = c.closed.flatMap fun p ↦ (c.graph.successors p).map (Edge.mk p)
  /-- So do the sources of the edges into a block. -/
  predecessors_eq : ∀ b, c.graph.predecessors b
    = c.closed.flatMap fun p ↦ List.replicate ((c.graph.successors p).count b) p
  /-- Two edges at most leave a block. There are fewer than 2 ^ 32 blocks, which does not keep the
  numbers of the edges below 2 ^ 31. -/
  edges_le : c.graph.edges.size ≤ 2 * c.graph.blockCount
  /-- A block has as many records as its head says, and their sources are its predecessors. -/
  head_eq : ∀ b < c.graph.blockCount, ∃ head, c.chains.heads[b]? = some head ∧
    head.newest = linkTo (c.graph.incoming b).getLast? ∧
    head.length = (c.graph.incoming b).length ∧ head.length = (c.graph.predecessors b).length
  sources_eq : ∀ b, (c.graph.incoming b).map (fun e ↦ c.chains.records[e]?.map EdgeRecord.source)
    = (c.graph.predecessors b).map some
  /-- The links are the words for those that the graph tells. -/
  next_eq : ∀ e, c.chains.records[e]?.map EdgeRecord.next
    = c.graph.edges[e]?.map fun _ ↦ linkTo (c.graph.previousEdge? e)
  /-- As long as the numbers of all records fit into their words, the chain of a block ends, it goes
  through the records of the block, latest first, and reading it gives the predecessors. -/
  chain : c.graph.edges.size ≤ 2 ^ 31 → ∀ b < c.graph.blockCount,
    (∃ head, c.chains.heads[b]? = some head ∧
      c.chains.Follows head.newest (c.graph.incoming b).reverse) ∧
    c.chains.predecessors b = .ok (c.graph.predecessors b)
  /-- Edges are counted alike from both sides. -/
  count_eq : ∀ p b, (c.graph.predecessors b).count p = (c.graph.successors p).count b

namespace Agrees

variable (h : c.Agrees)

include h

theorem head_eq {b : BlockIndex} (hb : b < c.graph.blockCount) :
    ∃ head, c.chains.heads[b]? = some head ∧
      head.newest = linkTo (c.graph.incoming b).getLast? ∧
      head.length = (c.graph.incoming b).length ∧
      head.length = (c.graph.predecessors b).length := by
  obtain ⟨head, hhead⟩ : ∃ head, c.chains.heads[b]? = some head :=
    ⟨_, Array.getElem?_eq_getElem (h.linked.heads_size ▸ hb)⟩
  obtain ⟨hnewest, hlength⟩ := h.linked.head hhead
  have hsame := congrArg List.length (h.linked.sources_incoming b)
  rw [List.length_map, List.length_map] at hsame
  exact ⟨head, hhead, hnewest, hlength, hlength.trans hsame⟩

private theorem next_eq (e : Nat) : c.chains.records[e]?.map EdgeRecord.next
    = c.graph.edges[e]?.map fun _ ↦ linkTo (c.graph.previousEdge? e) := by
  have hsize := h.linked.records_size
  by_cases he : e < c.graph.edges.size
  · have hr := Array.getElem?_eq_getElem (hsize ▸ he)
    rw [hr, Array.getElem?_eq_getElem he]
    exact congrArg some (h.linked.next hr)
  · rw [Array.getElem?_eq_none (by lia), Array.getElem?_eq_none (by lia)]
    rfl

/-- A block whose newest record has a number that does not fit cannot be asked for its
predecessors. -/
theorem fault {b : BlockIndex} {e : Nat} (he : (c.graph.incoming b).getLast? = some e)
    (hlow : 2 ^ 31 ≤ e) (hhigh : e < 2 ^ 32 - 1) : c.chains.predecessors b = .error .fault := by
  have hmem : e ∈ c.graph.incoming b := List.mem_of_getLast? he
  obtain ⟨edge, hedge, rfl⟩ := Graph.mem_incoming.mp hmem
  have hb := (h.built.sound.edge_lt (Array.mem_toList_iff.mpr (Array.mem_of_getElem? hedge))).2
  obtain ⟨head, hhead, hnewest, -⟩ := h.head_eq hb
  have hword : head.newest.toInt = e - 2 ^ 32 := by
    rw [hnewest, he, linkTo, Int32.toInt_ofNat', Int.bmod]
    lia
  rw [Chains.predecessors, hhead]
  refine Chains.fill_eq_fault _ (by lia) ?_ _ _
  intro hnone
  rw [hnone] at hword
  have : (linkTo none).toInt = -1 := rfl
  lia

end Agrees

/-- After any sequence of calls the tables represent the blocks and the edges of the graph. -/
theorem represented_of_calls {name : ByteArray} {l : List Call} {c : Construction}
    (h : (start name).calls l = .ok c) : c.Represented := by
  have hagrees := (agrees_start name).calls h
  have hg := hagrees.built.sound
  exact {
    blockOf_iff := fun i b ↦ by rw [Graph.blockOf_eq_ok, hg.mem_span_iff]
    exists_unique := fun i hi ↦ by
      obtain ⟨b, hb⟩ := hg.exists_owner hi
      exact ⟨b, ⟨Graph.lt_blockCount_of_mem_span hb, hb⟩, fun c hc ↦ hg.span_disjoint hc.2 hb⟩
    span_lt := fun b i hi ↦ hg.lt_of_mem_span hi
    closed_block := fun b hb ↦ by
      rw [or_iff_not_imp_left, ← Span.last?_eq_none, ← Ne, Option.ne_none_iff_exists']
      rintro ⟨i, hi⟩
      obtain ⟨op, hop⟩ := Graph.exists_op (hg.lt_of_mem_span (Span.last?_mem hi))
      refine ⟨i, op, hi, hop, hg.closed hi hb hop, fun j op' hj hop' hend ↦ ?_⟩
      exact Option.some.inj ((hg.ends hj hop' hend).1.symm.trans hi)
    open_block := fun b hb ↦ by
      refine ⟨hg.bound_lt hb, fun i op hi hop ↦ ?_⟩
      rw [← Bool.not_eq_true]
      exact fun hend ↦ (hg.ends hi hop hend).2 hb
    nodup_closed := hagrees.closedBy.nodup
    mem_closed := fun b ↦ hagrees.closedBy.mem_iff
    edges_eq := hagrees.closedBy.edges_eq
    predecessors_eq := Graph.predecessors_of_edgesFrom hagrees.closedBy.edges_eq
    edges_le := hagrees.closedBy.edges_le
    head_eq := fun b hb ↦ hagrees.head_eq hb
    sources_eq := hagrees.linked.sources_incoming
    next_eq := hagrees.next_eq
    chain := fun hfits b hb ↦ by
      obtain ⟨head, hhead, -⟩ := hagrees.head_eq hb
      exact ⟨⟨head, hhead, hagrees.linked.follows hfits hhead⟩,
        hagrees.linked.predecessors_eq hfits hb⟩
    count_eq := hg.count_predecessors_eq }

/-- Calls that fill blocks out of order, lead to one block by both sides of a branch, and renumber
the blocks. -/
def sampleCalls : List Call := [
  .addBlock .entry false, .addBlock .merge false, .addBlock .plain true, .bind 2,
  .addOperation (.pure "cond".toUTF8 []), .addOperation (.branch 0 1 1 .unhinted), .bind 0,
  .addOperation (.goto 2), .reorder [0, 2, 1], .bind 2, .addOperation (.ret [])]

theorem represented_of_sampleCalls :
    ∃ c, (start .empty).calls sampleCalls = .ok c ∧ c.graph.edges.size = 3 ∧
      c.chains.predecessors 2 = .ok [1, 1] ∧ c.closed = [1, 0, 2] ∧ c.Represented := by
  have hcalls : ((start .empty).calls sampleCalls).map
      (fun c ↦ (c.graph.edges.size, c.chains.predecessors 2, c.closed))
        = .ok (3, .ok [1, 1], [1, 0, 2]) := by decide +kernel
  cases hc : (start .empty).calls sampleCalls with
  | error e =>
    rw [hc] at hcalls
    cases hcalls
  | ok c =>
    rw [hc] at hcalls
    simp only [Except.map, Except.ok.injEq, Prod.mk.injEq] at hcalls
    obtain ⟨hsize, hpredecessors, hclosed⟩ := hcalls
    exact ⟨c, rfl, hsize, hpredecessors, hclosed, represented_of_calls hc⟩

end Construction

end Flowgraph
