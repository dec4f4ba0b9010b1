import Dendro.Replicate.Wire

/-!
# The wire round trip

Every field writer is paired with the cursor method that reads it (`…_roundTrips`), and a
frame kind is proved by following its two programs side by side. What is left for
`encode_frame` itself is the frame around the payload: the placeholder length, the size
limit and the patch.
-/

namespace Dendro.Replicate

open Codec

/-! ## Fields -/

/-- A fixed-width word, read as the bytes of its width and converted. -/
theorem word_roundTrips {α : Type} {n : Nat} {enc : Bytes} {v : α} (conv : Bytes → α)
    (hlen : enc.length = n) (hv : conv enc = v) :
    RoundTrips (Put.extend enc) (Cursor.take n >>= fun bs => pure (conv bs)) v := by
  subst hlen hv
  exact RoundTrips.map conv (RoundTrips.extend (Reads.take _ enc))

theorem putU8_roundTrips (v : UInt8) : RoundTrips (putU8 v) Cursor.u8 v :=
  word_roundTrips (List.headD · 0) rfl rfl

theorem putU32_roundTrips (v : UInt32) : RoundTrips (putU32 v) Cursor.u32 v :=
  word_roundTrips u32OfBytes (length_u32Bytes v) (u32OfBytes_u32Bytes v)

theorem putU64_roundTrips (v : UInt64) : RoundTrips (putU64 v) Cursor.u64 v :=
  word_roundTrips u64OfBytes (length_u64Bytes v) (u64OfBytes_u64Bytes v)

theorem putI64_roundTrips (v : Int64) : RoundTrips (putI64 v) Cursor.i64 v :=
  word_roundTrips i64OfBytes (length_i64Bytes v) (i64OfBytes_i64Bytes v)

/-- What follows a length may use that the length was small enough to write. -/
theorem putLen_bind_roundTrips {α : Type} {n : Nat} {e : Error} {q : Unit → Put Error Unit}
    {k : UInt32 → Get Error α} {b : α}
    (h : ∀ len : UInt32, len.toNat = n → RoundTrips (q ()) (k len) b) :
    RoundTrips (putLen n e >>= q) (Cursor.u32 >>= k) b := by
  unfold putLen
  by_cases hn : n ≥ 2 ^ 32
  · intro out out' ho
    obtain ⟨_, _, hp, -⟩ := Put.on_bind_eq_ok.mp ho
    rw [if_pos hn] at hp
    simp at hp
  · rw [if_neg hn]
    refine RoundTrips.bind (putU32_roundTrips _) (h _ ?_)
    exact UInt32.toNat_ofNat_of_lt' (by simpa [UInt32.size] using hn)

theorem putBytes_roundTrips (v : Bytes) : RoundTrips (putBytes v) Cursor.bytes v :=
  putLen_bind_roundTrips fun len hlen => by
    rw [hlen]; exact RoundTrips.extend (Reads.take _ v)

/-- UTF-8 is read back as the string it came from. -/
theorem fromUtf8_utf8 (s : String) : Cursor.fromUtf8 (utf8 s) = some s := by
  have h : String.fromUTF8? s.toByteArray = some s := by
    simp [String.fromUTF8?, String.fromUTF8, s.isValidUTF8]
  exact h

theorem putStr_roundTrips (v : String) : RoundTrips (putStr v) Cursor.string v :=
  (putBytes_roundTrips (utf8 v)).andThen (by rw [fromUtf8_utf8]; exact Reads.pure v)

theorem putMap_roundTrips (v : StringMap) : RoundTrips (putMap v) Cursor.map v :=
  putLen_bind_roundTrips fun len hlen => by
    rw [hlen]
    have hentry : ∀ e ∈ v.entries, RoundTrips (do putStr e.1; putStr e.2)
        (do let k ← Cursor.string; let v ← Cursor.string; return (k, v)) e := fun e _ =>
      (putStr_roundTrips e.1).bind ((putStr_roundTrips e.2).map (Prod.mk e.1))
    have := RoundTrips.map OrdMap.ofList (RoundTrips.forM (v := id) hentry)
    rwa [List.map_id, OrdMap.ofList_entries] at this

theorem putOptBytes_roundTrips (v : Option Bytes) :
    RoundTrips (putOptBytes v) Cursor.optBytes v := by
  cases v with
  | none => exact (putU8_roundTrips 0).andThen (Reads.pure none)
  | some b => exact (putU8_roundTrips 1).bind ((putBytes_roundTrips b).map some)

theorem boolByte_roundTrips (b : Bool) : RoundTrips (putU8 (boolByte b)) Cursor.bool b := by
  cases b with
  | false => exact (putU8_roundTrips 0).andThen (Reads.pure false)
  | true => exact (putU8_roundTrips 1).andThen (Reads.pure true)

theorem indexKindByte_roundTrips (k : IndexKind) :
    RoundTrips (putU8 (indexKindByte k)) Cursor.indexKind k := by
  cases k with
  | full => exact (putU8_roundTrips INDEX_FULL).andThen (Reads.pure IndexKind.full)
  | delta => exact (putU8_roundTrips INDEX_DELTA).andThen (Reads.pure IndexKind.delta)

theorem uuid_roundTrips (uuid : Option String) :
    RoundTrips (putOptBytes (uuid.map utf8)) Cursor.uuid uuid := by
  refine (putOptBytes_roundTrips _).andThen ?_
  cases uuid with
  | none => exact Reads.pure none
  | some s =>
      dsimp only [Option.map_some]
      rw [fromUtf8_utf8]
      exact Reads.pure (some s)

theorem putRow_roundTrips (row : WalRow) : RoundTrips (putRow row) Cursor.row row :=
  (putStr_roundTrips row.stream).bind <| (putI64_roundTrips row.ts).bind <|
    (putI64_roundTrips row.wall_offset).bind <| (putBytes_roundTrips row.row).map _

/-! ## Frames -/

/-- **Every payload that is written is read back as its frame**, one case per kind. -/
theorem putPayload_roundTrips (frame : Frame) :
    RoundTrips (putPayload frame) getFields (some frame) := by
  cases frame with
  | handshake source uuid labels metadata clock_anchor_wall_ns complete =>
      refine (putU8_roundTrips KIND_HANDSHAKE).bind (RoundTrips.map some ?_)
      exact (putU32_roundTrips source).bind <| (uuid_roundTrips uuid).bind <|
        (putMap_roundTrips labels).bind <| (putMap_roundTrips metadata).bind <|
        (putI64_roundTrips clock_anchor_wall_ns).bind <| (boolByte_roundTrips complete).map _
  | index source stream ts kind state blob =>
      refine (putU8_roundTrips KIND_INDEX).bind (RoundTrips.map some ?_)
      exact (putU32_roundTrips source).bind <| (putStr_roundTrips stream).bind <|
        (putI64_roundTrips ts).bind <| (indexKindByte_roundTrips kind).bind <|
        (putU64_roundTrips state.1).bind <| (putU64_roundTrips state.2).bind <|
        (putBytes_roundTrips blob).map _
  | rows source seq index_state rows =>
      refine (putU8_roundTrips KIND_ROWS).bind (RoundTrips.map some ?_)
      refine (putU32_roundTrips source).bind <| (putU64_roundTrips seq).bind <|
        (putU64_roundTrips index_state.1).bind <| (putU64_roundTrips index_state.2).bind <|
        putLen_bind_roundTrips fun len hlen => ?_
      rw [hlen]
      have h := RoundTrips.forM (v := id) fun row (_ : row ∈ rows) => putRow_roundTrips row
      have := RoundTrips.map (Frame.rows source seq index_state) h
      rwa [List.map_id] at this
  | segment source stream seg_meta bytes caller_index =>
      refine (putU8_roundTrips KIND_SEGMENT).bind (RoundTrips.map some ?_)
      exact (putU32_roundTrips source).bind <| (putStr_roundTrips stream).bind <|
        (putU64_roundTrips seg_meta.rows).bind <| (putI64_roundTrips seg_meta.first_ts).bind <|
        (putI64_roundTrips seg_meta.last_ts).bind <| (putBytes_roundTrips bytes).bind <|
        (putOptBytes_roundTrips caller_index).map _
  | clockOffset source ts offset_ns =>
      refine (putU8_roundTrips KIND_CLOCK_OFFSET).bind (RoundTrips.map some ?_)
      exact (putU32_roundTrips source).bind <| (putI64_roundTrips ts).bind <|
        (putI64_roundTrips offset_ns).map _
  | sourceUpdate source ts labels metadata =>
      refine (putU8_roundTrips KIND_SOURCE_UPDATE).bind (RoundTrips.map some ?_)
      exact (putU32_roundTrips source).bind <| (putI64_roundTrips ts).bind <|
        (putMap_roundTrips labels).bind <| (putMap_roundTrips metadata).map _

/-- A payload whose fields fill it exactly is decoded. -/
theorem decodeKnown_of_reads {payload : Bytes} {frame : Frame}
    (h : Reads getFields payload (some frame)) : decodeKnown payload = .ok (some frame) := by
  have hf : Get.on getFields payload = .ok (some frame, []) := by simpa using h []
  have hk : Get.on getKnown payload = .ok (some frame, []) := by
    rw [getKnown, Get.on_bind_eq_ok]
    exact ⟨some frame, [], hf, rfl⟩
  rw [decodeKnown, hk]
  rfl

theorem patch_append {out pre bs body : Bytes} (h : bs.length = pre.length) :
    patch out.length bs (out ++ (pre ++ body)) = out ++ (bs ++ body) := by
  simp [patch, h, List.drop_append]

/-- `encode_frame` is the payload behind a placeholder, then the limit and the patch. -/
theorem on_encodeFrame (frame : Frame) (out : Bytes) :
    Put.on (encodeFrame frame) out =
      match Put.on (putPayload frame) (out ++ u32Bytes 0) with
      | (.error e, mid) => (.error e, mid)
      | (.ok (), mid) =>
          let body := mid.length - (out.length + 4)
          if body > MAX_FRAME_BYTES then
            (.error (.message
              s!"a replication frame of {body} bytes exceeds the {MAX_FRAME_BYTES}-byte limit"),
              mid.take out.length)
          else (.ok (), patch out.length (u32Bytes (UInt32.ofNat body)) mid) := by
  simp only [encodeFrame, Put.on_bind, Put.on_get, putU32, Put.on_extend, List.length_append,
    length_u32Bytes]
  rcases Put.on (putPayload frame) (out ++ u32Bytes 0) with ⟨_ | _, mid⟩
  · rfl
  · dsimp only
    split
    · simp only [Put.on_bind, Put.on_modify, Put.on_throw]
    · rfl

/--
**What a successful `encode_frame` did**: the buffer grew by a length prefix and a payload
of that length, within the limit, whose fields read back as the frame.
-/
theorem encodeFrame_appends {frame : Frame} {out out' : Bytes}
    (h : Put.on (encodeFrame frame) out = (.ok (), out')) :
    ∃ payload, out' = out ++ (leBytes 4 payload.length ++ payload)
      ∧ payload.length ≤ MAX_FRAME_BYTES ∧ Reads getFields payload (some frame) := by
  rw [on_encodeFrame] at h
  rcases hp : Put.on (putPayload frame) (out ++ u32Bytes 0) with ⟨_ | u, mid⟩
  · simp [hp] at h
  · obtain ⟨payload, rfl, hr⟩ := putPayload_roundTrips frame _ _ hp
    have hbody : (out ++ u32Bytes 0 ++ payload).length - (out.length + 4) = payload.length := by
      simp; omega
    simp only [hp, hbody] at h
    by_cases hlim : payload.length > MAX_FRAME_BYTES
    · simp [hlim] at h
    · rw [if_neg hlim] at h
      have hlen : (UInt32.ofNat payload.length).toNat = payload.length :=
        UInt32.toNat_ofNat_of_lt' (by simp only [MAX_FRAME_BYTES, UInt32.size] at *; omega)
      refine ⟨payload, ?_, by omega, hr⟩
      rw [← (Prod.mk.inj h).2, List.append_assoc, patch_append (by simp), u32Bytes, hlen]

/--
**The wire round trip.** Whenever `encode_frame` succeeds, the buffer keeps what it held
and gains a four-byte little-endian length and that many payload bytes, no more than the
limit; and `decode_payload` of the payload is the frame.
-/
theorem encodeFrame_decodePayload {frame : Frame} {out out' : Bytes}
    (h : Put.on (encodeFrame frame) out = (.ok (), out')) :
    ∃ payload, out' = out ++ (leBytes 4 payload.length ++ payload)
      ∧ payload.length ≤ MAX_FRAME_BYTES ∧ decodePayload payload = .ok frame := by
  obtain ⟨payload, hout, hlim, hr⟩ := encodeFrame_appends h
  refine ⟨payload, hout, hlim, ?_⟩
  rw [decodePayload, decodeKnown_of_reads hr]
  rfl

/-- A clock observation behind three bytes that were in the buffer before. -/
theorem encodeFrame_decodePayload_clockOffset :
    ∃ payload : Bytes, ([7, 8, 9, 21, 0, 0, 0, 5, 4, 0, 0, 0, 0, 0, 0, 0, 0, 0, 0, 128,
        255, 255, 255, 255, 255, 255, 255, 255] : Bytes)
        = [7, 8, 9] ++ (leBytes 4 payload.length ++ payload)
      ∧ payload.length ≤ MAX_FRAME_BYTES
      ∧ decodePayload payload = .ok (.clockOffset 4 Int64.minValue (-1)) :=
  encodeFrame_decodePayload (by decide)

end Dendro.Replicate
