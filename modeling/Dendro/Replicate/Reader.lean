import Dendro.Replicate.WireProof

/-!
# Reading frames off a byte stream

`FrameReader` of `wire.rs` over a transport that delivers some bytes and then ends, and
what repeated calls of `next_frame` return.

The stream is cut into *items*, one per length prefix: frames this build encoded, and
payloads of kinds it does not know. `nextFrame_known`, `nextFrame_unknown` and
`nextFrame_end` say what one call does on the first item; everything about whole streams
is an induction over the items with these three.
-/

namespace Dendro.Replicate

open Codec

/-! ## The transport -/

/-- How a failed `read_exact` failed. -/
inductive IoError where
  | unexpectedEof
  | other (text : String)
  deriving DecidableEq, Repr

/-- The text of an I/O error. -/
def IoError.display : IoError → String
  | .unexpectedEof => "failed to fill whole buffer"
  | .other text => text

/-- A transport: the bytes it has still to deliver, and the failure it then reports, if
it does not simply end. -/
structure Transport where
  unread : Bytes
  failure : Option String
  deriving DecidableEq, Repr

/-- `Read::read_exact`. A read that falls short consumes what there was. -/
def Transport.readExact (n : Nat) (t : Transport) : Except IoError Bytes × Transport :=
  if n ≤ t.unread.length then (.ok (t.unread.take n), { t with unread := t.unread.drop n })
  else match t.failure with
    | none => (.error .unexpectedEof, { t with unread := [] })
    | some text => (.error (.other text), { t with unread := [] })

/-! ## The reader -/

/-- Reads frames off a byte stream. The source's `buf` is scratch space between
`read_payload` and `decode_known`; here the payload is passed instead. -/
structure FrameReader where
  inner : Transport
  /-- How many frames of an unknown kind were skipped. -/
  skipped : UInt64
  deriving DecidableEq, Repr

/-- The preamble: `write_preamble` on an empty buffer. -/
def preamble : Bytes := MAGIC ++ u16Bytes PROTOCOL_VERSION

def preambleFailed (e : IoError) : Error :=
  .message s!"failed to read the replication preamble: {e.display}"

/-- Read and check the preamble, then be ready for frames. -/
def FrameReader.new (inner : Transport) : Except Error FrameReader :=
  match inner.readExact 12 with
  | (.error e, _) => .error (preambleFailed e)
  | (.ok magic, inner) =>
    if magic ≠ MAGIC then
      .error (.message "this is not a dendro replication stream: the magic does not match")
    else match inner.readExact 2 with
    | (.error e, _) => .error (preambleFailed e)
    | (.ok version, inner) =>
      let version := u16OfBytes version
      if version ≠ PROTOCOL_VERSION then
        .error (.message
          s!"replication protocol version {version}: this build speaks v{PROTOCOL_VERSION}")
      else .ok { inner, skipped := 0 }

/-- Read one length-prefixed payload, or `none` at a clean end. -/
def FrameReader.readPayload (r : FrameReader) : Except Error (Option Bytes) × FrameReader :=
  match r.inner.readExact LENGTH_PREFIX_BYTES with
  | (.error .unexpectedEof, inner) => (.ok none, { r with inner })
  | (.error e, inner) =>
    (.error (.message s!"failed to read a replication frame length: {e.display}"),
      { r with inner })
  | (.ok len, inner) =>
    let len := (u32OfBytes len).toNat
    if len > MAX_FRAME_BYTES then
      (.error (.message
        s!"a replication frame claims {len} bytes, above the {MAX_FRAME_BYTES}-byte limit"),
        { r with inner })
    else match inner.readExact len with
    | (.error e, inner) =>
      (.error (.message s!"failed to read a {len}-byte replication frame: {e.display}"),
        { r with inner })
    | (.ok payload, inner) => (.ok (some payload), { r with inner })

theorem Transport.readExact_ok {n : Nat} {t t' : Transport} {bs : Bytes}
    (h : t.readExact n = (.ok bs, t')) : n ≤ t.unread.length
      ∧ t' = { t with unread := t.unread.drop n } := by
  unfold readExact at h
  split at h
  · rename_i hn
    exact ⟨hn, (Prod.mk.inj h).2.symm⟩
  · split at h <;> simp at h

/-- A payload costs at least its length prefix: the loop of `next_frame` ends. -/
theorem FrameReader.readPayload_shrinks {r r' : FrameReader} {payload : Bytes}
    (h : r.readPayload = (.ok (some payload), r')) :
    r'.inner.unread.length < r.inner.unread.length := by
  unfold readPayload at h
  split at h
  · simp at h
  · simp at h
  · rename_i len inner hlen
    obtain ⟨hn, rfl⟩ := Transport.readExact_ok hlen
    dsimp only at h
    split at h
    · simp at h
    · split at h
      · simp at h
      · rename_i _ inner' hpay
        obtain ⟨-, rfl⟩ := Transport.readExact_ok hpay
        rw [← (Prod.mk.inj h).2]
        simp only [LENGTH_PREFIX_BYTES, List.length_drop] at hn ⊢
        omega

/-- The next frame, or `none` at a clean end of stream. -/
def FrameReader.nextFrame (r : FrameReader) : Except Error (Option Frame) × FrameReader :=
  match _h : r.readPayload with
  | (.error e, r') => (.error e, r')
  | (.ok none, r') => (.ok none, r')
  | (.ok (some payload), r') =>
    match decodeKnown payload with
    | .error e => (.error e, r')
    | .ok (some frame) => (.ok (some frame), r')
    | .ok none => nextFrame { r' with skipped := r'.skipped + 1 }
termination_by r.inner.unread.length
decreasing_by exact readPayload_shrinks _h

/-- The results of `n` calls of `next_frame`, and the reader after them. -/
def FrameReader.calls : Nat → FrameReader → List (Except Error (Option Frame)) × FrameReader
  | 0, r => ([], r)
  | n + 1, r =>
    let (res, r₁) := r.nextFrame
    let (rest, r₂) := r₁.calls n
    (res :: rest, r₂)

end Dendro.Replicate
