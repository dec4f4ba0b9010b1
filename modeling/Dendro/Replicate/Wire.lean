import Dendro.Replicate.Frame

/-!
# Frames as bytes

The encoder and the decoder of `wire.rs`, one definition for each of its functions.

The encoder is a `Codec.Put`: it appends to the caller's buffer and, when a field is
refused half way, leaves what it had appended. The decoder's cursor over one payload is a
`Codec.Get` over the bytes the cursor has not read: its offset and the payload it points
into never matter apart from their difference. A `usize` has 64 bits, so that a cursor's
offset plus a length off the wire cannot overflow, and the overflow error of `take` has
no counterpart here.
-/

namespace Dendro.Replicate

open Codec

/-- Written once at the head of a stream, before any frame: `dendro-repl` and a NUL. -/
def MAGIC : Bytes := [0x64, 0x65, 0x6e, 0x64, 0x72, 0x6f, 0x2d, 0x72, 0x65, 0x70, 0x6c, 0]

/-- The protocol version this build writes and reads. -/
def PROTOCOL_VERSION : UInt16 := 1

/-- The largest frame this build will read. -/
def MAX_FRAME_BYTES : Nat := 64 * 1024 * 1024

/-- The bytes a frame's length prefix occupies. -/
def LENGTH_PREFIX_BYTES : Nat := 4

def KIND_HANDSHAKE : UInt8 := 1
def KIND_INDEX : UInt8 := 2
def KIND_ROWS : UInt8 := 3
def KIND_SEGMENT : UInt8 := 4
def KIND_CLOCK_OFFSET : UInt8 := 5
def KIND_SOURCE_UPDATE : UInt8 := 6

def INDEX_FULL : UInt8 := 0
def INDEX_DELTA : UInt8 := 1

def malformed (what : String) : Error :=
  .message s!"malformed replication frame: {what}"

/-! ## Encoding -/

def putU8 (v : UInt8) : Put Error Unit := Put.extend [v]

def putU32 (v : UInt32) : Put Error Unit := Put.extend (u32Bytes v)

def putU64 (v : UInt64) : Put Error Unit := Put.extend (u64Bytes v)

def putI64 (v : Int64) : Put Error Unit := Put.extend (i64Bytes v)

/-- `u32::try_from` of a length, with the error the caller gives. -/
def putLen (n : Nat) (tooLarge : Error) : Put Error Unit :=
  if n ≥ 2 ^ 32 then throw tooLarge else putU32 (UInt32.ofNat n)

/-- `u32` length, then the bytes. -/
def putBytes (v : Bytes) : Put Error Unit := do
  putLen v.length (.message s!"a replication field of {v.length} bytes is too large to encode")
  Put.extend v

/-- The UTF-8 bytes of a string. -/
def utf8 (s : String) : Bytes := s.toByteArray.data.toList

def putStr (v : String) : Put Error Unit := putBytes (utf8 v)

/-- A count, then the pairs in key order. -/
def putMap (v : StringMap) : Put Error Unit := do
  putLen v.entries.length (.message "a replication map is too large to encode")
  v.entries.forM fun e => do
    putStr e.1
    putStr e.2

/-- A presence byte and, when present, the bytes: absent and empty stay apart. -/
def putOptBytes : Option Bytes → Put Error Unit
  | none => putU8 0
  | some b => do
      putU8 1
      putBytes b

/-- `u8::from` of a boolean. -/
def boolByte (b : Bool) : UInt8 := if b then 1 else 0

/-- The byte of an index kind. -/
def indexKindByte : IndexKind → UInt8
  | .full => INDEX_FULL
  | .delta => INDEX_DELTA

/-- A row of a `rows` frame. -/
def putRow (row : WalRow) : Put Error Unit := do
  putStr row.stream
  putI64 row.ts
  putI64 row.wall_offset
  putBytes row.row

/-- The payload of a frame, kind byte included: the `match` of `encode_frame`. -/
def putPayload : Frame → Put Error Unit
  | .handshake source uuid labels metadata clock_anchor_wall_ns complete => do
      putU8 KIND_HANDSHAKE
      putU32 source
      putOptBytes (uuid.map utf8)
      putMap labels
      putMap metadata
      putI64 clock_anchor_wall_ns
      putU8 (boolByte complete)
  | .index source stream ts kind state blob => do
      putU8 KIND_INDEX
      putU32 source
      putStr stream
      putI64 ts
      putU8 (indexKindByte kind)
      putU64 state.1
      putU64 state.2
      putBytes blob
  | .rows source seq index_state rows => do
      putU8 KIND_ROWS
      putU32 source
      putU64 seq
      putU64 index_state.1
      putU64 index_state.2
      putLen rows.length (.message "a replication frame holds too many rows to encode")
      rows.forM putRow
  | .segment source stream seg_meta bytes caller_index => do
      putU8 KIND_SEGMENT
      putU32 source
      putStr stream
      putU64 seg_meta.rows
      putI64 seg_meta.first_ts
      putI64 seg_meta.last_ts
      putBytes bytes
      putOptBytes caller_index
  | .clockOffset source ts offset_ns => do
      putU8 KIND_CLOCK_OFFSET
      putU32 source
      putI64 ts
      putI64 offset_ns
  | .sourceUpdate source ts labels metadata => do
      putU8 KIND_SOURCE_UPDATE
      putU32 source
      putI64 ts
      putMap labels
      putMap metadata

/-- Overwrite the bytes of `out` from offset `pos` on with `bs`. -/
def patch (pos : Nat) (bs out : Bytes) : Bytes :=
  out.take pos ++ bs ++ out.drop (pos + bs.length)

/-- Append one frame's bytes: length, kind, payload. -/
def encodeFrame (frame : Frame) : Put Error Unit := do
  let len_at := (← get).length
  putU32 0
  let body_at := (← get).length
  putPayload frame
  let body := (← get).length - body_at
  if body > MAX_FRAME_BYTES then
    modify (List.take len_at)
    throw (.message
      s!"a replication frame of {body} bytes exceeds the {MAX_FRAME_BYTES}-byte limit")
  else
    modify (patch len_at (u32Bytes (UInt32.ofNat body)))

/-- One frame's bytes on their own. -/
def encode (frame : Frame) : Except Error Bytes :=
  match Put.on (encodeFrame frame) [] with
  | (.ok (), out) => .ok out
  | (.error e, _) => .error e

/-! ## Decoding -/

namespace Cursor

/-- The next `n` bytes of the payload. -/
def take (n : Nat) : Get Error Bytes :=
  Get.take (fun n left =>
    malformed s!"it ends early: {n} more byte(s) wanted, {left} left") n

def u8 : Get Error UInt8 := do
  return (← take 1).headD 0

def u32 : Get Error UInt32 := do
  return u32OfBytes (← take 4)

def u64 : Get Error UInt64 := do
  return u64OfBytes (← take 8)

def i64 : Get Error Int64 := do
  return i64OfBytes (← take 8)

def bytes : Get Error Bytes := do
  let len ← u32
  take len.toNat

/-- `String::from_utf8`. -/
def fromUtf8 (raw : Bytes) : Option String := String.fromUTF8? ⟨raw.toArray⟩

def string : Get Error String := do
  let raw ← bytes
  match fromUtf8 raw with
  | some s => return s
  | none => throw (malformed "a string field is not UTF-8")

/-- The pairs are inserted one by one, so a repeated key keeps its last value. -/
def map : Get Error StringMap := do
  let len ← u32
  let pairs ← Get.times (do
    let k ← string
    let v ← string
    return (k, v)) len.toNat
  return OrdMap.ofList pairs

def optBytes : Get Error (Option Bytes) := do
  match ← u8 with
  | 0 => return none
  | 1 => return some (← bytes)
  | other => throw (malformed s!"{other} is not a presence byte; it is 0 or 1")

def bool : Get Error Bool := do
  match ← u8 with
  | 0 => return false
  | 1 => return true
  | other => throw (malformed s!"{other} is not a boolean; it is 0 or 1")

/-- Every byte of the payload must be consumed. -/
def finish : Get Error Unit := fun left =>
  if left = [] then .ok ((), [])
  else .error (malformed s!"{left.length} trailing byte(s) after its fields")

/-- A handshake's optional uuid. -/
def uuid : Get Error (Option String) := do
  match ← optBytes with
  | none => return none
  | some raw =>
    match fromUtf8 raw with
    | some s => return some s
    | none => throw (malformed "a uuid is not UTF-8")

def indexKind : Get Error IndexKind := do
  match ← u8 with
  | 0 => return .full
  | 1 => return .delta
  | other => throw (malformed s!"{other} is not an index kind")

def row : Get Error WalRow := do
  let stream ← string
  let ts ← i64
  let wall_offset ← i64
  let row ← bytes
  return { stream, ts, wall_offset, row }

end Cursor

/-- The fields of a frame after its kind byte; `none` for a kind this build does not know. -/
def decodeFields (kind : UInt8) : Option (Get Error Frame) :=
  if kind = KIND_HANDSHAKE then some do
    let source ← Cursor.u32
    let uuid ← Cursor.uuid
    let labels ← Cursor.map
    let metadata ← Cursor.map
    let clock_anchor_wall_ns ← Cursor.i64
    let complete ← Cursor.bool
    return .handshake source uuid labels metadata clock_anchor_wall_ns complete
  else if kind = KIND_INDEX then some do
    let source ← Cursor.u32
    let stream ← Cursor.string
    let ts ← Cursor.i64
    let kind ← Cursor.indexKind
    let state₀ ← Cursor.u64
    let state₁ ← Cursor.u64
    let blob ← Cursor.bytes
    return .index source stream ts kind (state₀, state₁) blob
  else if kind = KIND_ROWS then some do
    let source ← Cursor.u32
    let seq ← Cursor.u64
    let state₀ ← Cursor.u64
    let state₁ ← Cursor.u64
    let count ← Cursor.u32
    let rows ← Get.times Cursor.row count.toNat
    return .rows source seq (state₀, state₁) rows
  else if kind = KIND_SEGMENT then some do
    let source ← Cursor.u32
    let stream ← Cursor.string
    let rows ← Cursor.u64
    let first_ts ← Cursor.i64
    let last_ts ← Cursor.i64
    let bytes ← Cursor.bytes
    let caller_index ← Cursor.optBytes
    return .segment source stream { rows, first_ts, last_ts } bytes caller_index
  else if kind = KIND_CLOCK_OFFSET then some do
    let source ← Cursor.u32
    let ts ← Cursor.i64
    let offset_ns ← Cursor.i64
    return .clockOffset source ts offset_ns
  else if kind = KIND_SOURCE_UPDATE then some do
    let source ← Cursor.u32
    let ts ← Cursor.i64
    let labels ← Cursor.map
    let metadata ← Cursor.map
    return .sourceUpdate source ts labels metadata
  else none

/-- The kind byte and the fields it announces. -/
def getFields : Get Error (Option Frame) := do
  let kind ← Cursor.u8
  match decodeFields kind with
  | none => return none
  | some fields => return some (← fields)

/-- One whole payload. Only the kind byte of an unknown frame is read: its layout is not
known, so nothing can be said about where it should end. -/
def getKnown : Get Error (Option Frame) := do
  match ← getFields with
  | none => return none
  | some frame =>
      Cursor.finish
      return some frame

/-- `decodePayload`, with an unknown kind returned as `none` rather than an error. -/
def decodeKnown (payload : Bytes) : Except Error (Option Frame) :=
  (Get.on getKnown payload).map Prod.fst

/-- Decode one frame from a payload: the bytes after the length prefix. -/
def decodePayload (payload : Bytes) : Except Error Frame := do
  match ← decodeKnown payload with
  | some frame => return frame
  | none =>
      -- `decodeKnown` read the kind byte, so `payload[0]` is there
      throw (malformed s!"{payload.headD 0} is not a frame kind this build reads")

end Dendro.Replicate
