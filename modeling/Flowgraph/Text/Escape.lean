/-!
# Escape sequences

A text for a terminal can hold sequences that set colours, move the cursor or carry data to the
terminal, and that are not shown. They are followed byte by byte: what a byte means depends on the
sequence it stands in.

A sequence begins with an escape or with a control byte above the ASCII characters, and most end
with a letter. Cancelling and starting afresh are possible almost everywhere. Only inside of data
do the bytes of characters outside ASCII belong to the sequence.
-/

namespace Flowgraph.Text

/-- Where in a sequence a text stands. -/
inductive Escape where
  /-- Outside of sequences. -/
  | ground
  /-- After an escape. -/
  | begun
  /-- After the marks that follow an escape. -/
  | designation
  /-- In a control sequence, before or among its numbers. -/
  | control
  /-- In a control sequence, after its marks. -/
  | controlMarks
  /-- In a message, which the terminal passes over. -/
  | message
  /-- In data for the system. -/
  | systemData
  /-- In a device control sequence, at its beginning. -/
  | device
  /-- In a device control sequence, among its numbers. -/
  | deviceNumbers
  /-- In a device control sequence, after its marks. -/
  | deviceMarks
  /-- In data for the device. -/
  | deviceData
deriving DecidableEq

namespace Escape

/-- Does the place take characters outside ASCII for data? -/
def holdsData (e : Escape) : Bool := e = .systemData || e = .deviceData

/-- What a byte begins or cancels wherever it stands outside of data. -/
def restart? (b : Nat) : Option Escape :=
  if b = 0x1B then some .begun
  else if b = 0x90 then some .device
  else if b = 0x9B then some .control
  else if b = 0x9D then some .systemData
  else if b = 0x98 || b = 0x9E || b = 0x9F then some .message
  else if b = 0x18 || b = 0x1A || 0x80 ≤ b then some .ground
  else none

/-- The place after an ASCII byte that neither begins nor cancels a sequence. -/
def nextPlain (e : Escape) (b : Nat) : Escape :=
  let passed := b < 0x20 || b = 0x7F
  match e with
  | .ground => .ground
  | .begun =>
    if passed then .begun
    else if b < 0x30 then .designation
    else if b = '['.toNat then .control
    else if b = ']'.toNat then .systemData
    else if b = 'P'.toNat then .device
    else if b = 'X'.toNat || b = '^'.toNat || b = '_'.toNat then .message
    else .ground
  | .designation => if passed || b < 0x30 then .designation else .ground
  | .control =>
    if passed then .control
    else if b < 0x30 then .controlMarks
    else if b < 0x40 then .control
    else .ground
  | .controlMarks => if passed || b < 0x30 then .controlMarks else .ground
  | .device =>
    if 0x08 ≤ b && b ≤ 0x0D then .deviceData
    else if passed then .device
    else if b < 0x30 then .deviceMarks
    else if b < 0x40 then .deviceNumbers
    else .deviceData
  | .deviceNumbers =>
    if passed then .deviceNumbers
    else if b < 0x30 then .deviceMarks
    else if b < 0x40 then .deviceNumbers
    else .deviceData
  | .deviceMarks => if passed || b < 0x30 then .deviceMarks else .deviceData
  | .message => .message
  | .systemData => .systemData
  | .deviceData => .deviceData

/-- The place after one more byte. Data ends with an escape, a terminator or a cancellation, and
data for the system with a bell too. An escape at the beginning of a device control sequence is
taken for data. -/
def next (e : Escape) (b : Nat) : Escape :=
  if e.holdsData then
    if b = 0x1B then .begun
    else if b = 0x18 || b = 0x1A || b = 0x9C || (b = 0x07 && e = .systemData) then .ground
    else e
  else if e = .device && b = 0x1B then .deviceData
  else (restart? b).getD (e.nextPlain b)

end Escape

end Flowgraph.Text
