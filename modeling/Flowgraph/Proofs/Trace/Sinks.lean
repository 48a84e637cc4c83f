import Flowgraph.Trace.Sink
import Mathlib.Algebra.Group.Nat.Defs
import Mathlib.Data.List.DropRight
import Mathlib.Data.List.Rotate

/-!
# What streams and rings hold

A stream writes a document event by event, and a ring writes one of the events that it still has. A
ring of `c` slots has the last `c` events that its level admits, and its document is the one that a
stream writes which is given these events and is closed.

Two invariants carry this. A stream *tells* of the events that it has written, and whether it is
closed; so its text is a frame around them, without its end as long as the stream is open, whatever
the calls were. In a ring the events are *in turn*: the one with number `i` stands in the slot
`i % c`, if it is among the last `c`.

## Rings of words

A ring can have all its slots from the beginning, count its events in a word of 64 bits, and walk
through the slots when it is looked at. Such a `Wheel` shows the same events as long as there are
fewer than 2 ^ 64 of them.
-/

namespace Flowgraph.Trace

/-! ## Streams

The text of a stream is a frame around the events that it has heard, joined by what its format puts
between two of them. Closing completes the frame, and nothing is heard afterwards. -/

namespace Stream

/-- What a stream can be asked to do. -/
inductive Call where
  | emit (e : Event)
  | close
deriving DecidableEq

namespace Call

/-- The events that arrive before a stream is closed for the first time. -/
def heard : List Call → List Event
  | [] => []
  | emit e :: calls => e :: heard calls
  | close :: _ => []

variable {calls : List Call}

private theorem heard_append_of_mem (h : close ∈ calls) (calls' : List Call) :
    heard (calls ++ calls') = heard calls := by
  induction calls with
  | nil => cases h
  | cons call calls ih =>
    cases call with
    | emit e => exact congrArg (e :: ·) (ih ((List.mem_cons.mp h).resolve_left nofun))
    | close => rfl

private theorem heard_append_of_notMem (h : close ∉ calls) (calls' : List Call) :
    heard (calls ++ calls') = heard calls ++ heard calls' := by
  induction calls with
  | nil => rfl
  | cons call calls ih =>
    cases call with
    | emit e => exact congrArg (e :: ·) (ih fun hmem ↦ h (List.mem_cons_of_mem _ hmem))
    | close => exact absurd List.mem_cons_self h

private theorem heard_map_emit (events : List Event) : heard (events.map emit) = events := by
  induction events with
  | nil => rfl
  | cons e events ih => exact congrArg (e :: ·) ih

end Call

open Flowgraph.Trace.Stream.Call

variable {level : Level} {f : Format} {start : Int} {flushFails closed : Bool} {s : Stream}
  {e : Event} {events : List Event}

def call (s : Stream) : Call → Stream
  | .emit e => s.emit e
  | .close => s.close

/-- A new stream with lines of text that count from a given time. -/
def openedAt (start : Int) (level : Level) (f : Format) (flushFails : Bool) : Stream :=
  { opened level f flushFails with start }

/-- Written events, with what stands between them. -/
def joined (f : Format) (start : Int) (events : List Event) : String :=
  f.frame.separator.intercalate (events.map (·.encode f start))

private theorem joined_concat (f : Format) (start : Int) (events : List Event) (e : Event) :
    joined f start (events ++ [e]) = joined f start events
      ++ (if events.length = 0 then "" else f.frame.separator) ++ e.encode f start := by
  rw [joined, List.map_append]
  cases events with
  | nil => simp [joined]
  | cons e' events =>
    rw [String.intercalate_append_of_ne_nil (by simp) (by simp)]
    simp [joined]

/-- The stream has written the given events, and its frame if it is closed. -/
structure Tells (level : Level) (f : Format) (start : Int) (events : List Event) (closed : Bool)
    (s : Stream) : Prop where
  level_eq : s.level = level
  format_eq : s.format = f
  start_eq : s.start = start
  written_eq : s.written = events.length
  closed_eq : s.closed = closed
  text_eq : s.text = f.frame.front ++ joined f start events ++ if closed then f.frame.back else ""

private theorem tells_openedAt (level : Level) (f : Format) (start : Int) (flushFails : Bool) :
    (openedAt start level f flushFails).Tells level f start [] false where
  level_eq := rfl
  format_eq := rfl
  start_eq := rfl
  written_eq := rfl
  closed_eq := rfl
  text_eq := by simp [openedAt, opened, joined]

private theorem emit_of_not_admits (h : s.level.admits e = false) : s.emit e = s := by
  rw [emit, h, Bool.not_false, Bool.true_or, if_pos rfl]

private theorem emit_of_closed (h : s.closed = true) (e : Event) : s.emit e = s := by
  rw [emit, h, Bool.or_true, if_pos rfl]

private theorem emit_of_admits (hadmits : s.level.admits e = true) (hopen : s.closed = false) :
    s.emit e = { s with
      text := s.text ++ (if s.written = 0 then "" else s.format.frame.separator)
        ++ e.encode s.format s.start
      written := s.written + 1 } := by
  rw [emit, hadmits, hopen, Bool.not_true, Bool.or_false, if_neg Bool.false_ne_true]

private theorem Tells.emit (h : s.Tells level f start events false) (e : Event) :
    (s.emit e).Tells level f start (events ++ [e].filter level.admits) false := by
  obtain ⟨hlevel, hformat, hstart, hwritten, hclosed, htext⟩ := h
  cases hadmits : level.admits e with
  | false =>
    rw [List.filter_cons_of_neg (by simp [hadmits]), List.filter_nil, List.append_nil,
      emit_of_not_admits (hlevel ▸ hadmits)]
    exact ⟨hlevel, hformat, hstart, hwritten, hclosed, htext⟩
  | true =>
    rw [List.filter_cons_of_pos hadmits, List.filter_nil,
      emit_of_admits (hlevel ▸ hadmits) hclosed]
    refine ⟨hlevel, hformat, hstart, ?_, hclosed, ?_⟩
    · rw [hwritten, List.length_append, List.length_singleton]
    · rw [joined_concat, htext, hwritten, hformat, hstart]
      simp [String.append_assoc]

/-- The frame is written at the end of the first call only. -/
theorem Tells.close (h : s.Tells level f start events closed) :
    s.close.Tells level f start events true := by
  cases closed with
  | true =>
    rw [Stream.close, h.closed_eq, if_pos rfl]
    exact h
  | false =>
    rw [Stream.close, h.closed_eq, if_neg (by decide)]
    exact ⟨h.level_eq, h.format_eq, h.start_eq, h.written_eq, rfl, by
      rw [h.text_eq, h.format_eq]
      simp⟩

/-- Whatever the calls are, the stream tells of the admitted events that it heard. -/
theorem tells_calls (level : Level) (f : Format) (start : Int) (flushFails : Bool)
    (calls : List Call) :
    (calls.foldl call (openedAt start level f flushFails)).Tells level f start
      ((heard calls).filter level.admits) (decide (.close ∈ calls)) := by
  induction calls using List.reverseRecOn with
  | nil => exact tells_openedAt level f start flushFails
  | append_singleton calls last ih =>
    rw [List.foldl_append]
    by_cases hclosed : .close ∈ calls
    · rw [heard_append_of_mem hclosed, decide_eq_true (List.mem_append_left _ hclosed)]
      rw [decide_eq_true hclosed] at ih
      cases last with
      | emit e =>
        change (Stream.emit _ e).Tells level f start _ true
        rw [emit_of_closed ih.closed_eq]
        exact ih
      | close => exact ih.close
    · rw [heard_append_of_notMem hclosed, List.filter_append]
      rw [decide_eq_false hclosed] at ih
      cases last with
      | emit e =>
        rw [decide_eq_false (by simpa using hclosed)]
        exact ih.emit e
      | close =>
        rw [decide_eq_true (List.mem_append_right _ (List.mem_singleton_self _))]
        exact (List.append_nil _).symm ▸ ih.close

/-- The document of a stream that is given some events and is closed then. -/
def document (start : Int) (level : Level) (f : Format) (flushFails : Bool) (events : List Event) :
    String :=
  (events.foldl Stream.emit (openedAt start level f flushFails)).close.text

private theorem document_eq (start : Int) (level : Level) (f : Format) (flushFails : Bool)
    (events : List Event) : document start level f flushFails events
      = f.frame.front ++ joined f start (events.filter level.admits) ++ f.frame.back := by
  have h := tells_calls level f start flushFails (events.map .emit)
  rw [heard_map_emit, List.foldl_map] at h
  exact h.close.text_eq

end Stream

/-! ## Rings

A ring is full or still has room, and in both cases the next event takes the slot that its number
has. Read from the oldest event on, the slots show the last events in order. A wheel does the same
with a word for the count and with all slots there from the start. -/

/-- Each of the last `c` members of a list stands in its slot, where `c` slots are filled in
turn. -/
def InTurn {α : Type} (c : Nat) (past : List α) (slot? : Nat → Option α) : Prop :=
  ∀ i < past.length, past.length ≤ i + c → slot? (i % c) = past[i]?

/-- The next member takes the slot of one that is not among the last `c` any more. -/
theorem InTurn.push {α : Type} {c : Nat} {past : List α} {slot? slot?' : Nat → Option α}
    (h : InTurn c past slot?) {x : α} (hnew : slot?' (past.length % c) = some x)
    (hold : ∀ p ≠ past.length % c, slot?' p = slot? p) : InTurn c (past ++ [x]) slot?' := by
  intro i hi hlast
  rw [List.length_append, List.length_singleton] at hi hlast
  rcases Nat.lt_succ_iff_lt_or_eq.mp hi with hlt | rfl
  · have hne : i % c ≠ past.length % c := by
      intro heq
      have hdvd : c ∣ past.length - i :=
        Nat.dvd_of_mod_eq_zero (Nat.sub_mod_eq_zero_of_mod_eq heq.symm)
      have hle := Nat.le_of_dvd (by omega) hdvd
      omega
    rw [hold _ hne, h i hlt (by omega), List.getElem?_append_left hlt]
  · rw [hnew, List.getElem?_concat_length]

/-- The slots from that of the oldest kept member on hold the last `c` members. -/
theorem InTurn.window {α : Type} {c : Nat} {past : List α} {slot? : Nat → Option α}
    (h : InTurn c past slot?) {j : Nat} (hj : j < min past.length c) :
    slot? ((past.length - min past.length c + j) % c) = (past.rtake c)[j]? := by
  have hplace : past.length - min past.length c + j = past.length - c + j := by omega
  rw [hplace, List.rtake, List.getElem?_drop]
  exact h _ (by omega) (by omega)

theorem length_rtake {α : Type} (past : List α) (c : Nat) :
    (past.rtake c).length = min past.length c := by
  rw [List.rtake, List.length_drop]
  omega

namespace Ring

variable {level : Level} {c : Nat} {past : List Event} {r : Ring} {e : Event}

/-- The ring has been given the events of `past`, and keeps the last `c` of them. -/
structure Keeps (level : Level) (c : Nat) (past : List Event) (r : Ring) : Prop where
  level_eq : r.level = level
  capacity_eq : r.capacity = c
  total_eq : r.total = past.length
  size_eq : r.slots.size = min past.length c
  inTurn : InTurn c past (r.slots[·]?)

private theorem keeps_empty (level : Level) (hc : 1 ≤ c) : (empty c level).Keeps level c [] where
  level_eq := rfl
  capacity_eq := by
    change (if (c : Int) ≤ 0 then _ else _) = c
    rw [if_neg (by omega), Int.toNat_natCast]
  total_eq := rfl
  size_eq := (Nat.zero_min c).symm
  inTurn i hi := absurd hi (Nat.not_lt_zero i)

private theorem emit_of_not_admits (h : r.level.admits e = false) : r.emit e = r := by
  rw [emit, h, Bool.not_false, if_pos rfl]

private theorem emit_of_room (hadmits : r.level.admits e = true)
    (hroom : r.slots.size < r.capacity) :
    r.emit e = { r with slots := r.slots.push e, total := r.total + 1 } := by
  rw [emit, hadmits, Bool.not_true, if_neg Bool.false_ne_true]
  exact congrArg (Ring.mk _ _ · _) (if_pos hroom)

private theorem emit_of_full (hadmits : r.level.admits e = true)
    (hfull : r.capacity ≤ r.slots.size) : r.emit e = { r with
      slots := r.slots.setIfInBounds (r.total % r.capacity) e
      total := r.total + 1 } := by
  rw [emit, hadmits, Bool.not_true, if_neg Bool.false_ne_true]
  exact congrArg (Ring.mk _ _ · _) (if_neg (Nat.not_lt.mpr hfull))

private theorem Keeps.push (h : r.Keeps level c past) (hc : 1 ≤ c)
    (hadmits : level.admits e = true) : (r.emit e).Keeps level c (past ++ [e]) := by
  obtain ⟨hlevel, hcapacity, htotal, hsize, hturn⟩ := h
  have hlength : (past ++ [e]).length = past.length + 1 := List.length_append
  rcases Nat.lt_or_ge past.length c with hroom | hfull
  · have hplace : past.length % c = r.slots.size := by rw [Nat.mod_eq_of_lt hroom]; omega
    rw [emit_of_room (hlevel ▸ hadmits) (by omega)]
    refine ⟨hlevel, hcapacity, by rw [htotal, hlength], ?_, hturn.push ?_ fun p hp ↦ ?_⟩
    · rw [Array.size_push]
      omega
    · rw [hplace, Array.getElem?_push_size]
    · rw [Array.getElem?_push, if_neg (hplace ▸ hp)]
  · have hplace : past.length % c < r.slots.size := by
      have hlt := Nat.mod_lt past.length hc
      omega
    rw [emit_of_full (hlevel ▸ hadmits) (by omega), hcapacity, htotal]
    refine ⟨hlevel, rfl, hlength.symm, ?_, hturn.push ?_ fun p hp ↦ ?_⟩
    · rw [Array.size_setIfInBounds]
      omega
    · exact Array.getElem?_setIfInBounds_self_of_lt hplace
    · exact Array.getElem?_setIfInBounds_ne hp.symm

private theorem Keeps.emit (h : r.Keeps level c past) (hc : 1 ≤ c) (e : Event) :
    (r.emit e).Keeps level c (past ++ [e].filter level.admits) := by
  cases hadmits : level.admits e with
  | false =>
    rw [List.filter_cons_of_neg (by simp [hadmits]), List.filter_nil, List.append_nil,
      emit_of_not_admits (h.level_eq ▸ hadmits)]
    exact h
  | true =>
    rw [List.filter_cons_of_pos hadmits, List.filter_nil]
    exact h.push hc hadmits

private theorem keeps_foldl (level : Level) (hc : 1 ≤ c) (events : List Event) :
    (events.foldl emit (empty c level)).Keeps level c (events.filter level.admits) := by
  induction events using List.reverseRecOn with
  | nil => exact keeps_empty level hc
  | append_singleton events e ih =>
    rw [List.foldl_append, List.filter_append]
    exact ih.emit hc e

private theorem Keeps.snapshot_eq (h : r.Keeps level c past) : r.snapshot = past.rtake c := by
  obtain ⟨-, hcapacity, htotal, hsize, hturn⟩ := h
  have hrotate : r.snapshot = r.slots.toList.rotate r.total := by
    rw [List.rotate_eq_drop_append_take_mod, Array.length_toList, snapshot, hcapacity]
    rcases Nat.lt_or_ge past.length c with hroom | hfull
    · rw [if_pos (by omega), show r.slots.size = r.total by omega, Nat.mod_self]
    · rw [if_neg (by omega), show r.slots.size = c by omega]
  have hlength : r.slots.toList.length = min past.length c := by rw [Array.length_toList, hsize]
  rw [hrotate]
  refine List.ext_getElem? fun j ↦ ?_
  rcases Nat.lt_or_ge j (min past.length c) with hj | hj
  · have hplace : (j + r.total) % r.slots.size = (past.length - min past.length c + j) % c := by
      rcases Nat.lt_or_ge past.length c with hroom | hfull
      · rw [show past.length - min past.length c + j = j by omega,
          show r.slots.size = r.total by omega, Nat.add_mod_right, Nat.mod_eq_of_lt (by omega),
          Nat.mod_eq_of_lt (by omega)]
      · rw [show j + r.total = past.length - min past.length c + j + c by omega,
          show r.slots.size = c by omega, Nat.add_mod_right]
    rw [List.getElem?_rotate (hlength ▸ hj), Array.length_toList, Array.getElem?_toList, hplace,
      hturn.window hj]
  · rw [List.getElem?_eq_none (by rw [List.length_rotate, hlength]; exact hj),
      List.getElem?_eq_none (by rw [length_rtake]; exact hj)]

end Ring

/-- A ring with all its slots from the beginning, whose count is a word. -/
structure Wheel where
  level : Level
  slots : Array Event
  count : UInt64

namespace Wheel

variable {level : Level} {c : Nat} {past : List Event} {w : Wheel} {e : Event}

/-- A new wheel; all its slots hold the same blank event. -/
def empty (capacity : Nat) (blank : Event) (level : Level) : Wheel :=
  ⟨level, Array.replicate capacity blank, 0⟩

def size (w : Wheel) : UInt64 := .ofNat w.slots.size

/-- Keeps an event, if the level admits it, in place of the oldest one. -/
def emit (w : Wheel) (e : Event) : Wheel :=
  if !w.level.admits e then w
  else { w with
    slots := w.slots.setIfInBounds (w.count % w.size).toNat e
    count := w.count + 1 }

/-- What the slots of the kept events hold, oldest first. -/
def snapshot (w : Wheel) : List (Option Event) :=
  let n := min w.count w.size
  let first := w.count - n
  (List.range n.toNat).map fun i ↦ w.slots[((first + .ofNat i) % w.size).toNat]?

/-- The wheel has been given the events of `past`, and keeps the last `c` of them. -/
structure Keeps (level : Level) (c : Nat) (past : List Event) (w : Wheel) : Prop where
  level_eq : w.level = level
  size_eq : w.slots.size = c
  count_eq : w.count.toNat = past.length
  inTurn : InTurn c past (w.slots[·]?)

private theorem keeps_empty (c : Nat) (blank : Event) (level : Level) :
    (empty c blank level).Keeps level c [] where
  level_eq := rfl
  size_eq := Array.size_replicate
  count_eq := rfl
  inTurn i hi := absurd hi (Nat.not_lt_zero i)

theorem Keeps.toNat_size (h : w.Keeps level c past) (hword : c < 2 ^ 64) : w.size.toNat = c := by
  rw [size, h.size_eq, UInt64.toNat_ofNat_of_lt' hword]

private theorem emit_of_not_admits (h : w.level.admits e = false) : w.emit e = w := by
  rw [emit, h, Bool.not_false, if_pos rfl]

private theorem emit_of_admits (h : w.level.admits e = true) :
    w.emit e = { w with
      slots := w.slots.setIfInBounds (w.count % w.size).toNat e
      count := w.count + 1 } := by
  rw [emit, h, Bool.not_true, if_neg Bool.false_ne_true]

private theorem Keeps.emit (h : w.Keeps level c past) (hc : 1 ≤ c) (hword : c < 2 ^ 64)
    (hcount : (past ++ [e].filter level.admits).length < 2 ^ 64) :
    (w.emit e).Keeps level c (past ++ [e].filter level.admits) := by
  cases hadmits : level.admits e with
  | false =>
    rw [List.filter_cons_of_neg (by simp [hadmits]), List.filter_nil, List.append_nil,
      emit_of_not_admits (h.level_eq ▸ hadmits)]
    exact h
  | true =>
    have hlength : (past ++ [e]).length = past.length + 1 := List.length_append
    rw [List.filter_cons_of_pos hadmits, List.filter_nil, hlength] at hcount
    rw [List.filter_cons_of_pos hadmits, List.filter_nil, emit_of_admits (h.level_eq ▸ hadmits)]
    have hplace : (w.count % w.size).toNat = past.length % c := by
      rw [UInt64.toNat_mod, h.toNat_size hword, h.count_eq]
    rw [hplace]
    refine ⟨h.level_eq, ?_, ?_, h.inTurn.push ?_ fun p hp ↦ ?_⟩
    · rw [Array.size_setIfInBounds, h.size_eq]
    · rw [UInt64.toNat_add, h.count_eq, hlength, UInt64.toNat_one, Nat.mod_eq_of_lt hcount]
    · rw [Array.getElem?_setIfInBounds_self_of_lt]
      exact h.size_eq.symm ▸ Nat.mod_lt _ hc
    · exact Array.getElem?_setIfInBounds_ne hp.symm

private theorem keeps_foldl (level : Level) (hc : 1 ≤ c) (hword : c < 2 ^ 64) (blank : Event)
    (events : List Event) (hcount : (events.filter level.admits).length < 2 ^ 64) :
    (events.foldl emit (empty c blank level)).Keeps level c (events.filter level.admits) := by
  induction events using List.reverseRecOn with
  | nil => exact keeps_empty c blank level
  | append_singleton events e ih =>
    rw [List.filter_append] at hcount
    rw [List.foldl_append, List.filter_append]
    have hless : (events.filter level.admits).length < 2 ^ 64 := by
      rw [List.length_append] at hcount
      omega
    exact (ih hless).emit hc hword hcount

private theorem Keeps.snapshot_eq (h : w.Keeps level c past) (hword : c < 2 ^ 64) :
    w.snapshot = (past.rtake c).map some := by
  have hcount : past.length < 2 ^ 64 := h.count_eq ▸ w.count.toNat_lt
  have hkept : (min w.count w.size).toNat = min past.length c := by
    change (if w.count ≤ w.size then w.count else w.size).toNat = _
    simp only [apply_ite UInt64.toNat, UInt64.le_iff_toNat_le, h.count_eq, h.toNat_size hword,
      min_def]
  have hfirst : (w.count - min w.count w.size).toNat = past.length - min past.length c := by
    have hle : min w.count w.size ≤ w.count := by
      rw [UInt64.le_iff_toNat_le, hkept, h.count_eq]
      exact min_le_left _ _
    rw [UInt64.toNat_sub_of_le _ _ hle, hkept, h.count_eq]
  refine List.ext_getElem? fun j ↦ ?_
  rw [snapshot, List.getElem?_map, List.getElem?_map, hkept]
  rcases Nat.lt_or_ge j (min past.length c) with hj | hj
  · have hword' : j < 2 ^ 64 := by omega
    -- no sum of words goes over, so that the places are those of the ring that is counted exactly
    have hplace : ((w.count - min w.count w.size + .ofNat j) % w.size).toNat
        = (past.length - min past.length c + j) % c := by
      rw [UInt64.toNat_mod, UInt64.toNat_add, hfirst, UInt64.toNat_ofNat_of_lt' hword',
        h.toNat_size hword, Nat.mod_eq_of_lt (b := 2 ^ 64) (by omega)]
    rw [List.getElem?_range hj, ← h.inTurn.window hj, Option.map_some, hplace]
    have hkept' : (past.length - min past.length c + j) % c < w.slots.size := by
      rw [h.size_eq]
      exact Nat.mod_lt _ (by omega)
    rw [Array.getElem?_eq_getElem hkept']
    rfl
  · rw [List.getElem?_eq_none (by rw [List.length_range]; exact hj),
      List.getElem?_eq_none (by rw [length_rtake]; exact hj)]
    rfl

end Wheel

/-! ## Documents

A dump of a ring is the text of a stream that is given the events of the ring and is closed. -/

/-- A ring of `c ≥ 1` slots shows the last `c` of the admitted events, and writes the document that
a stream of its level writes which is given just these events and is closed; its slots can be there
from the beginning and counted by a word. Whatever the calls of a stream are, its text is the front
of the frame, the admitted events that came before the first call to close, with the separator
between them, and the back of the frame if there was such a call. -/
theorem dump_eq_document (level : Level) (f : Format) (start : Int) (flushFails : Bool) {c : Nat}
    (hc : 1 ≤ c) :
    (∀ events : List Event,
      let past := events.filter level.admits
      let ring := events.foldl Ring.emit (.empty c level)
      ring.snapshot = past.rtake c ∧ ring.snapshot.length = min past.length c ∧
      ring.dump f start = Stream.document start level f flushFails ring.snapshot ∧
      ∀ blank, c < 2 ^ 64 → past.length < 2 ^ 64 →
        (events.foldl Wheel.emit (.empty c blank level)).snapshot = ring.snapshot.map some) ∧
    ∀ calls : List Stream.Call,
      (calls.foldl Stream.call (.openedAt start level f flushFails)).text
        = f.frame.front
          ++ f.frame.separator.intercalate
            (((Stream.Call.heard calls).filter level.admits).map (·.encode f start))
          ++ if .close ∈ calls then f.frame.back else "" := by
  refine ⟨fun events ↦ ?_, fun calls ↦ ?_⟩
  · have hsnapshot := (Ring.keeps_foldl level hc events).snapshot_eq
    refine ⟨hsnapshot, hsnapshot ▸ length_rtake _ c, ?_, fun blank hword hcount ↦ ?_⟩
    · have hadmitted : ((events.filter level.admits).rtake c).filter level.admits
          = (events.filter level.admits).rtake c :=
        List.filter_eq_self.mpr fun e he ↦ (List.mem_filter.mp (List.mem_of_mem_drop he)).2
      rw [Ring.dump, hsnapshot, Stream.document_eq, hadmitted, Stream.joined]
    · rw [hsnapshot, (Wheel.keeps_foldl level hc hword blank events hcount).snapshot_eq hword]
  · rw [(Stream.tells_calls level f start flushFails calls).text_eq, Stream.joined]
    simp only [decide_eq_true_eq]

/-- Of three events a ring of two slots writes the later ones. -/
theorem dump_eq_document_after_turn :
    let point (n : Nat) : Event := ⟨n, n, .point, .driver, 0, 0, 0, "stage", "", []⟩
    let events := [point 1, point 2, point 3]
    let ring := events.foldl Ring.emit (.empty 2 .phase)
    1 ≤ 2 ∧ ring.snapshot = [point 2, point 3] ∧
      ring.dump .chrome 0 = Stream.document 0 .phase .chrome false [point 2, point 3] ∧
      (events.foldl Wheel.emit (.empty 2 (point 0) .phase)).snapshot
        = [some (point 2), some (point 3)] := by
  intro point events ring
  obtain ⟨hsnapshot, -, hdump, hwheel⟩ :=
    (dump_eq_document .phase .chrome 0 false (by decide : 1 ≤ 2)).1 events
  have hkept : ring.snapshot = [point 2, point 3] := hsnapshot.trans (by decide)
  refine ⟨by decide, hkept, hkept ▸ hdump, ?_⟩
  exact (hwheel (point 0) (by decide) (by decide)).trans (congrArg (List.map some) hkept)

end Flowgraph.Trace
