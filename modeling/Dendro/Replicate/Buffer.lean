import Dendro.Replicate.WireProof

/-!
# What a refused frame leaves in the buffer

`encode_frame` writes in place, behind a length it reserves. A frame over the size limit is cut
off again. A field, a map or a row list too long for its `u32` length is refused where it stands,
by an early return, and what was written before it stays: the reserved length, the kind byte and
the fields before.

So the buffer is restored exactly for the frames all of whose lengths fit
(`encodeFrame_restores_iff`); for these the size limit is the only refusal.
-/

namespace Dendro.Replicate

open Codec

/-! ## The buffer grows -/

theorem putU8_appends (v : UInt8) : Put.Appends (putU8 v) := .extend _

theorem putU32_appends (v : UInt32) : Put.Appends (putU32 v) := .extend _

theorem putU64_appends (v : UInt64) : Put.Appends (putU64 v) := .extend _

theorem putI64_appends (v : Int64) : Put.Appends (putI64 v) := .extend _

theorem putLen_appends (n : Nat) (e : Error) : Put.Appends (putLen n e) := by
  unfold putLen
  split
  · exact .throw e
  · exact putU32_appends _

theorem putBytes_appends (v : Bytes) : Put.Appends (putBytes v) :=
  (putLen_appends _ _).bind fun _ => .extend v

theorem putStr_appends (v : String) : Put.Appends (putStr v) := putBytes_appends _

theorem putMap_appends (v : StringMap) : Put.Appends (putMap v) :=
  (putLen_appends _ _).bind fun _ =>
    .forM (fun _ => (putStr_appends _).bind fun _ => putStr_appends _) _

theorem putOptBytes_appends (v : Option Bytes) : Put.Appends (putOptBytes v) := by
  cases v with
  | none => exact putU8_appends 0
  | some b => exact (putU8_appends 1).bind fun _ => putBytes_appends b

theorem putRow_appends (row : WalRow) : Put.Appends (putRow row) :=
  (putStr_appends _).bind fun _ => (putI64_appends _).bind fun _ =>
    (putI64_appends _).bind fun _ => putBytes_appends _

/-- **Whatever is refused, the buffer keeps what it held**, one case per kind. -/
theorem putPayload_appends (frame : Frame) : Put.Appends (putPayload frame) := by
  cases frame with
  | handshake source uuid labels metadata anchor complete =>
      exact (putU8_appends _).bind fun _ => (putU32_appends _).bind fun _ =>
        (putOptBytes_appends _).bind fun _ => (putMap_appends _).bind fun _ =>
        (putMap_appends _).bind fun _ => (putI64_appends _).bind fun _ => putU8_appends _
  | index source stream ts kind state blob =>
      exact (putU8_appends _).bind fun _ => (putU32_appends _).bind fun _ =>
        (putStr_appends _).bind fun _ => (putI64_appends _).bind fun _ =>
        (putU8_appends _).bind fun _ => (putU64_appends _).bind fun _ =>
        (putU64_appends _).bind fun _ => putBytes_appends _
  | rows source seq index_state rows =>
      exact (putU8_appends _).bind fun _ => (putU32_appends _).bind fun _ =>
        (putU64_appends _).bind fun _ => (putU64_appends _).bind fun _ =>
        (putU64_appends _).bind fun _ => (putLen_appends _ _).bind fun _ =>
        .forM putRow_appends rows
  | segment source stream seg_meta bytes caller_index =>
      exact (putU8_appends _).bind fun _ => (putU32_appends _).bind fun _ =>
        (putStr_appends _).bind fun _ => (putU64_appends _).bind fun _ =>
        (putI64_appends _).bind fun _ => (putI64_appends _).bind fun _ =>
        (putBytes_appends _).bind fun _ => putOptBytes_appends _
  | clockOffset source ts offset_ns =>
      exact (putU8_appends _).bind fun _ => (putU32_appends _).bind fun _ =>
        (putI64_appends _).bind fun _ => putI64_appends _
  | sourceUpdate source ts labels metadata =>
      exact (putU8_appends _).bind fun _ => (putU32_appends _).bind fun _ =>
        (putI64_appends _).bind fun _ => (putMap_appends _).bind fun _ => putMap_appends _

/-! ## Lengths that fit -/

/-- A length that a `u32` prefix can hold. -/
def Prefixed (n : Nat) : Prop := n < 2 ^ 32

def StrPrefixed (s : String) : Prop := Prefixed (utf8 s).length

def MapPrefixed (m : StringMap) : Prop :=
  Prefixed m.entries.length ∧ ∀ e ∈ m.entries, StrPrefixed e.1 ∧ StrPrefixed e.2

def OptPrefixed (b : Option Bytes) : Prop := ∀ bytes ∈ b, Prefixed bytes.length

def RowPrefixed (row : WalRow) : Prop := StrPrefixed row.stream ∧ Prefixed row.row.length

/-- Every length of a frame fits its prefix. -/
def Frame.LengthsFit : Frame → Prop
  | .handshake _ uuid labels metadata _ _ =>
      OptPrefixed (uuid.map utf8) ∧ MapPrefixed labels ∧ MapPrefixed metadata
  | .index _ stream _ _ _ blob => StrPrefixed stream ∧ Prefixed blob.length
  | .rows _ _ _ taken => Prefixed taken.length ∧ ∀ row ∈ taken, RowPrefixed row
  | .segment _ stream _ bytes caller_index =>
      StrPrefixed stream ∧ Prefixed bytes.length ∧ OptPrefixed caller_index
  | .clockOffset .. => True
  | .sourceUpdate _ _ labels metadata => MapPrefixed labels ∧ MapPrefixed metadata

theorem putU8_needs (v : UInt8) : Put.Needs (putU8 v) True := .extend _

theorem putU32_needs (v : UInt32) : Put.Needs (putU32 v) True := .extend _

theorem putU64_needs (v : UInt64) : Put.Needs (putU64 v) True := .extend _

theorem putI64_needs (v : Int64) : Put.Needs (putI64 v) True := .extend _

theorem putLen_needs (n : Nat) (e : Error) : Put.Needs (putLen n e) (Prefixed n) := by
  intro out
  unfold putLen Prefixed
  by_cases hn : n ≥ 2 ^ 32
  · rw [if_pos hn]
    refine ⟨fun ⟨out', h⟩ => ?_, fun hlt => absurd hn (Nat.not_le.mpr hlt)⟩
    simp at h
  · rw [if_neg hn]
    exact ⟨fun _ => Nat.not_le.mp hn, fun _ => ⟨_, rfl⟩⟩

theorem putBytes_needs (v : Bytes) : Put.Needs (putBytes v) (Prefixed v.length) :=
  (putLen_needs _ _).last (.extend v)

theorem putStr_needs (v : String) : Put.Needs (putStr v) (StrPrefixed v) := putBytes_needs _

theorem putMap_needs (v : StringMap) : Put.Needs (putMap v) (MapPrefixed v) :=
  (putLen_needs _ _).bind (.forM (fun _ => (putStr_needs _).bind (putStr_needs _)) _)

theorem putOptBytes_needs (v : Option Bytes) : Put.Needs (putOptBytes v) (OptPrefixed v) := by
  cases v with
  | none =>
      intro out
      exact ⟨fun _ bytes hb => absurd hb (by simp), fun _ => ⟨_, rfl⟩⟩
  | some b =>
      have hfits : OptPrefixed (some b) ↔ Prefixed b.length := by simp [OptPrefixed]
      rw [hfits]
      exact (putU8_needs 1).first (putBytes_needs b)

theorem putRow_needs (row : WalRow) : Put.Needs (putRow row) (RowPrefixed row) :=
  (putStr_needs row.stream).bind <| (putI64_needs row.ts).first <|
    (putI64_needs row.wall_offset).first <| putBytes_needs row.row

/-- **A payload is written exactly where every length of the frame fits**, one case per kind. -/
theorem putPayload_needs (frame : Frame) : Put.Needs (putPayload frame) frame.LengthsFit := by
  cases frame with
  | handshake source uuid labels metadata anchor complete =>
      exact (putU8_needs _).first <| (putU32_needs source).first <|
        (putOptBytes_needs _).bind <| (putMap_needs labels).bind <|
        (putMap_needs metadata).last <| (putI64_needs anchor).first (putU8_needs _)
  | index source stream ts kind state blob =>
      exact (putU8_needs _).first <| (putU32_needs source).first <|
        (putStr_needs stream).bind <| (putI64_needs ts).first <| (putU8_needs _).first <|
        (putU64_needs state.1).first <| (putU64_needs state.2).first (putBytes_needs blob)
  | rows source seq index_state rows =>
      exact (putU8_needs _).first <| (putU32_needs source).first <| (putU64_needs seq).first <|
        (putU64_needs index_state.1).first <| (putU64_needs index_state.2).first <|
        (putLen_needs _ _).bind (.forM putRow_needs rows)
  | segment source stream seg_meta bytes caller_index =>
      exact (putU8_needs _).first <| (putU32_needs source).first <|
        (putStr_needs stream).bind <| (putU64_needs seg_meta.rows).first <|
        (putI64_needs seg_meta.first_ts).first <| (putI64_needs seg_meta.last_ts).first <|
        (putBytes_needs bytes).bind (putOptBytes_needs caller_index)
  | clockOffset source ts offset_ns =>
      exact (putU8_needs _).first <| (putU32_needs source).first <|
        (putI64_needs ts).first (putI64_needs offset_ns)
  | sourceUpdate source ts labels metadata =>
      exact (putU8_needs _).first <| (putU32_needs source).first <| (putI64_needs ts).first <|
        (putMap_needs labels).bind (putMap_needs metadata)

/-! ## The buffer after a refusal -/

/-- A frame that is refused by a length leaves the reserved prefix at least. -/
theorem encodeFrame_fragment {frame : Frame} (hlong : ¬ frame.LengthsFit) (out : Bytes) :
    ∃ e out', Put.on (encodeFrame frame) out = (.error e, out') ∧ out' ≠ out := by
  obtain ⟨enc, henc⟩ := putPayload_appends frame (out ++ u32Bytes 0)
  rcases hp : Put.on (putPayload frame) (out ++ u32Bytes 0) with ⟨e | u, mid⟩
  · rw [hp] at henc
    refine ⟨e, mid, by rw [on_encodeFrame, hp], fun heq => ?_⟩
    have hlen := congrArg List.length (henc.symm.trans heq)
    simp at hlen
  · exact absurd ((putPayload_needs frame _).mp ⟨mid, hp⟩) hlong

/-- **A refused frame leaves the buffer alone exactly where every length fits.** -/
theorem encodeFrame_restores_iff (frame : Frame) (out : Bytes) :
    (∀ e out', Put.on (encodeFrame frame) out = (.error e, out') → out' = out) ↔
      frame.LengthsFit := by
  constructor
  · intro h
    by_contra hlong
    obtain ⟨e, out', hrefused, hne⟩ := encodeFrame_fragment hlong out
    exact hne (h e out' hrefused)
  · intro hfit e out' h
    obtain ⟨mid, hp⟩ := (putPayload_needs frame (out ++ u32Bytes 0)).mpr hfit
    obtain ⟨enc, henc⟩ := putPayload_appends frame (out ++ u32Bytes 0)
    rw [hp] at henc
    obtain rfl : mid = out ++ u32Bytes 0 ++ enc := henc
    rw [on_encodeFrame, hp] at h
    dsimp only at h
    split at h
    · -- past the limit: cut off again
      rw [← (Prod.mk.inj h).2]
      simp
    · simp at h

/-- An index entry whose blob is one byte too long for its prefix: the length, the kind and the
fields before the blob stay in an empty buffer. -/
theorem encodeFrame_leaves_fragment :
    ∃ e out', Put.on (encodeFrame (.index 1 "cpu" 0 .full (0, 0)
      (List.replicate (2 ^ 32) 0))) [] = (.error e, out') ∧ out' ≠ [] := by
  refine encodeFrame_fragment (fun hfit => ?_) []
  have hblob : Prefixed (List.replicate (2 ^ 32) (0 : UInt8)).length := hfit.2
  rw [Prefixed, List.length_replicate] at hblob
  exact Nat.lt_irrefl _ hblob

end Dendro.Replicate
