import Dendro.Replicate.Reader

/-!
# What a frame reader returns

A stream is cut into *items*, one per length prefix: frames this build encoded, and
payloads of kinds it does not know. `nextFrame_known`, `nextFrame_unknown`,
`nextFrame_short` and `nextFrame_cut` say what one call does at the head of the unread
bytes; everything about whole streams is an induction over the items with these four.
-/

namespace Dendro.Replicate

open Codec

/-! ## One call -/

variable {failure : Option String} {k : UInt64}

theorem encode_ok {frame : Frame} {bs : Bytes} (h : encode frame = .ok bs) :
    ∃ payload, bs = leBytes 4 payload.length ++ payload ∧ payload.length ≤ MAX_FRAME_BYTES
      ∧ decodeKnown payload = .ok (some frame) := by
  unfold encode at h
  split at h
  · rename_i out he
    obtain ⟨payload, hout, hlim, hr⟩ := encodeFrame_appends he
    obtain rfl : out = bs := by simpa using h
    exact ⟨payload, by simpa using hout, hlim, decodeKnown_of_reads hr⟩
  · simp at h

@[simp] theorem readExact_append (a b : Bytes) :
    Transport.readExact a.length ⟨a ++ b, failure⟩ = (.ok a, ⟨b, failure⟩) := by
  simp [Transport.readExact]

/-- A length prefix within the limit is read as the length it was written from. -/
theorem prefix_toNat {n : Nat} (h : n ≤ MAX_FRAME_BYTES) :
    (u32OfBytes (leBytes 4 n)).toNat = n := by
  have hlt : n < 2 ^ 32 := by simp only [MAX_FRAME_BYTES] at h; omega
  rw [u32OfBytes, ofLeBytes_leBytes_of_lt (by simpa using hlt)]
  exact UInt32.toNat_ofNat_of_lt' (by simpa [UInt32.size] using hlt)

theorem readExact_prefix (n : Nat) (rest : Bytes) :
    Transport.readExact LENGTH_PREFIX_BYTES ⟨leBytes 4 n ++ rest, failure⟩
      = (.ok (leBytes 4 n), ⟨rest, failure⟩) := by
  have h := @readExact_append failure (leBytes 4 n) rest
  rwa [length_leBytes] at h

theorem readPayload_append {payload rest : Bytes} (h : payload.length ≤ MAX_FRAME_BYTES) :
    FrameReader.readPayload ⟨⟨leBytes 4 payload.length ++ payload ++ rest, failure⟩, k⟩
      = (.ok (some payload), ⟨⟨rest, failure⟩, k⟩) := by
  simp only [FrameReader.readPayload, List.append_assoc, readExact_prefix, prefix_toNat h,
    if_neg (Nat.not_lt.mpr h), readExact_append]

/-- One turn of the loop of `next_frame`. -/
theorem nextFrame_eq (r : FrameReader) :
    r.nextFrame = match r.readPayload with
      | (.error e, r') => (.error e, r')
      | (.ok none, r') => (.ok none, r')
      | (.ok (some payload), r') => match decodeKnown payload with
        | .error e => (.error e, r')
        | .ok (some frame) => (.ok (some frame), r')
        | .ok none => FrameReader.nextFrame { r' with skipped := r'.skipped + 1 } := by
  conv => lhs; rw [FrameReader.nextFrame]
  split
  next hp => simp only [hp]
  next hp => simp only [hp]
  next payload r' hp => rcases hd : decodeKnown payload with e | _ | frame <;> simp only [hp, hd]

theorem nextFrame_known {payload rest : Bytes} {frame : Frame}
    (h : payload.length ≤ MAX_FRAME_BYTES) (hd : decodeKnown payload = .ok (some frame)) :
    FrameReader.nextFrame ⟨⟨leBytes 4 payload.length ++ payload ++ rest, failure⟩, k⟩
      = (.ok (some frame), ⟨⟨rest, failure⟩, k⟩) := by
  simp only [nextFrame_eq, readPayload_append h, hd]

theorem nextFrame_unknown {payload rest : Bytes} (h : payload.length ≤ MAX_FRAME_BYTES)
    (hd : decodeKnown payload = .ok none) :
    FrameReader.nextFrame ⟨⟨leBytes 4 payload.length ++ payload ++ rest, failure⟩, k⟩
      = FrameReader.nextFrame ⟨⟨rest, failure⟩, k + 1⟩ := by
  rw [nextFrame_eq, readPayload_append h]
  simp only [hd]

/-- Fewer bytes than a length prefix, and then the end: reported as a clean end. -/
theorem nextFrame_short {bs : Bytes} (h : bs.length < LENGTH_PREFIX_BYTES) :
    FrameReader.nextFrame ⟨⟨bs, none⟩, k⟩ = (.ok none, ⟨⟨[], none⟩, k⟩) := by
  have hp : FrameReader.readPayload ⟨⟨bs, none⟩, k⟩ = (.ok none, ⟨⟨[], none⟩, k⟩) := by
    simp [FrameReader.readPayload, Transport.readExact, Nat.not_le.mpr h]
  rw [nextFrame_eq, hp]

/-- A whole length prefix, but not the payload it announces: an error. -/
theorem nextFrame_cut {n : Nat} {part : Bytes} (hn : n ≤ MAX_FRAME_BYTES)
    (h : part.length < n) :
    ∃ e, (FrameReader.nextFrame ⟨⟨leBytes 4 n ++ part, none⟩, k⟩).1 = .error e := by
  have hp : ∃ e, (FrameReader.readPayload ⟨⟨leBytes 4 n ++ part, none⟩, k⟩).1 = .error e := by
    simp only [FrameReader.readPayload, readExact_prefix, prefix_toNat hn,
      if_neg (Nat.not_lt.mpr hn)]
    simp [Transport.readExact, Nat.not_le.mpr h]
  obtain ⟨e, hp⟩ := hp
  refine ⟨e, ?_⟩
  rw [nextFrame_eq]
  rcases h' : FrameReader.readPayload ⟨⟨leBytes 4 n ++ part, none⟩, k⟩ with ⟨_ | _, r'⟩
  · simpa [h'] using hp
  · simp [h'] at hp

/-! ## Items -/

/-- The kinds this build reads. -/
def knownKinds : List UInt8 :=
  [KIND_HANDSHAKE, KIND_INDEX, KIND_ROWS, KIND_SEGMENT, KIND_CLOCK_OFFSET, KIND_SOURCE_UPDATE]

/-- What stands behind one length prefix of a stream. -/
inductive Item where
  | known (frame : Frame)
  | unknown (payload : Bytes)

/-- The bytes an item occupies on the stream. -/
inductive Item.Encodes : Item → Bytes → Prop where
  /-- A frame, as `encode` writes it. -/
  | known {frame : Frame} {bs : Bytes} : encode frame = .ok bs → Encodes (.known frame) bs
  /-- A length-prefixed payload whose first byte is no known kind. -/
  | unknown {kind : UInt8} {body : Bytes} : kind ∉ knownKinds →
      (kind :: body).length ≤ MAX_FRAME_BYTES →
      Encodes (.unknown (kind :: body)) (leBytes 4 (kind :: body).length ++ kind :: body)

/-- The frames among the items. -/
def knownFrames : List Item → List Frame
  | [] => []
  | .known frame :: items => frame :: knownFrames items
  | .unknown _ :: items => knownFrames items

/-- How many unknown payloads `n` calls have to look past: those in front of the `n`-th
known frame, or all of them when there are fewer than `n`. -/
def passedOver : List Item → Nat → Nat
  | _, 0 => 0
  | [], _ + 1 => 0
  | .known _ :: items, n + 1 => passedOver items n
  | .unknown _ :: items, n + 1 => passedOver items (n + 1) + 1

/-- The call that returns a frame has passed over the unknown payloads before it. -/
theorem passedOver_known (pre post : List Item) (frame : Frame) :
    passedOver (pre ++ .known frame :: post) ((knownFrames pre).length + 1)
      + (knownFrames pre).length = pre.length := by
  induction pre with
  | nil => simp [knownFrames, passedOver]
  | cons item pre ih =>
      cases item with
      | known f => simp only [List.cons_append, knownFrames, List.length_cons, passedOver]; omega
      | unknown p => simp only [List.cons_append, knownFrames, List.length_cons, passedOver]; omega

/-- A call past the last frame has passed over every unknown payload. -/
theorem passedOver_end {items : List Item} {n : Nat} (h : (knownFrames items).length < n) :
    passedOver items n + (knownFrames items).length = items.length := by
  induction items generalizing n with
  | nil => cases n <;> simp [passedOver, knownFrames]
  | cons item items ih =>
      obtain ⟨n, rfl⟩ : ∃ m, n = m + 1 := ⟨n - 1, by omega⟩
      cases item with
      | known f =>
          simp only [knownFrames, List.length_cons] at h ⊢
          have := ih (n := n) (by omega)
          simp only [passedOver]; omega
      | unknown p =>
          simp only [knownFrames, List.length_cons] at h ⊢
          have := ih h
          simp only [passedOver]; omega

theorem decodeKnown_unknown {kind : UInt8} {body : Bytes} (h : kind ∉ knownKinds) :
    decodeKnown (kind :: body) = .ok none := by
  have hf : decodeFields kind = none := by
    simp only [knownKinds, List.mem_cons, List.not_mem_nil, or_false, not_or] at h
    obtain ⟨h₁, h₂, h₃, h₄, h₅, h₆⟩ := h
    simp only [decodeFields, h₁, h₂, h₃, h₄, h₅, h₆, if_false]
  have hu : Get.on Cursor.u8 (kind :: body) = .ok (kind, body) := by
    obtain ⟨enc, henc, hr⟩ := putU8_roundTrips kind [] [kind] rfl
    obtain rfl : [kind] = enc := henc
    exact hr body
  have hg : Get.on getFields (kind :: body) = .ok (none, body) := by
    rw [getFields, Get.on_bind_eq_ok]
    exact ⟨kind, body, hu, by rw [hf]; rfl⟩
  have hk : Get.on getKnown (kind :: body) = .ok (none, body) := by
    rw [getKnown, Get.on_bind_eq_ok]
    exact ⟨none, body, hg, rfl⟩
  rw [decodeKnown, hk]
  rfl

/-! ## Whole streams -/

/-- The results of `n` calls on a stream of items, and the skips counted by then: call
`i` returns the `i`-th known frame, or `none` once there is no such frame. -/
theorem calls_items {items : List Item} {parts : List Bytes}
    (h : List.Forall₂ Item.Encodes items parts) (n : Nat) (k : UInt64) :
    (FrameReader.calls n ⟨⟨parts.flatten, none⟩, k⟩).1
        = (List.range n).map (fun i => .ok (knownFrames items)[i]?)
      ∧ (FrameReader.calls n ⟨⟨parts.flatten, none⟩, k⟩).2.skipped
        = k + UInt64.ofNat (passedOver items n) := by
  induction h generalizing n k with
  | nil =>
      induction n with
      | zero => simp [FrameReader.calls, passedOver]
      | succ n ih =>
          have hn := @nextFrame_short k [] (by decide)
          obtain ⟨h₁, h₂⟩ := ih
          simp only [List.flatten_nil] at h₁ h₂ ⊢
          simp only [FrameReader.calls, hn, h₁, h₂]
          constructor
          · rw [List.range_succ_eq_map, List.map_cons, List.map_map]
            rfl
          · cases n <;> simp [passedOver]
  | cons hi hrest ih =>
      cases n with
      | zero => simp [FrameReader.calls, passedOver]
      | succ n =>
          cases hi with
          | known he =>
              obtain ⟨payload, rfl, hlim, hd⟩ := encode_ok he
              obtain ⟨h₁, h₂⟩ := ih n k
              simp only [List.flatten_cons, FrameReader.calls, nextFrame_known hlim hd, h₁, h₂]
              simp [List.range_succ_eq_map, knownFrames, passedOver]
          | unknown hk hlim =>
              obtain ⟨h₁, h₂⟩ := ih (n + 1) (k + 1)
              simp only [FrameReader.calls] at h₁ h₂
              simp only [List.flatten_cons, FrameReader.calls,
                nextFrame_unknown hlim (decodeKnown_unknown hk), h₁, h₂]
              refine ⟨rfl, ?_⟩
              simp only [passedOver, UInt64.ofNat_add]
              rw [UInt64.add_assoc, UInt64.add_comm 1]
              rfl

theorem new_preamble (rest : Bytes) :
    FrameReader.new ⟨preamble ++ rest, failure⟩ = .ok ⟨⟨rest, failure⟩, 0⟩ := by
  have h₁ := @readExact_append failure MAGIC (u16Bytes PROTOCOL_VERSION ++ rest)
  have h₂ := @readExact_append failure (u16Bytes PROTOCOL_VERSION) rest
  rw [show MAGIC.length = 12 from rfl, ← List.append_assoc] at h₁
  rw [show (u16Bytes PROTOCOL_VERSION).length = 2 from rfl] at h₂
  simp only [FrameReader.new, preamble, h₁, h₂, ne_eq, not_true_eq_false, if_false,
    u16OfBytes_u16Bytes]

/--
**The stream reader yields exactly the known frames.** On the preamble followed by any
items, call `i` of `next_frame` returns the `i`-th known frame and, from the last one on,
`None` for ever; and after `n` calls `skipped` counts the unknown payloads those calls
looked past.
-/
theorem frameReader_yields_known {items : List Item} {parts : List Bytes}
    (h : List.Forall₂ Item.Encodes items parts) :
    ∃ r, FrameReader.new ⟨preamble ++ parts.flatten, none⟩ = .ok r ∧ ∀ n,
      (r.calls n).1 = (List.range n).map (fun i => .ok (knownFrames items)[i]?)
        ∧ (r.calls n).2.skipped = UInt64.ofNat (passedOver items n) := by
  refine ⟨_, new_preamble _, fun n => ?_⟩
  obtain ⟨h₁, h₂⟩ := calls_items h n 0
  exact ⟨h₁, by rw [h₂, UInt64.zero_add]⟩

/-- An unknown payload in front of a clock observation. -/
theorem frameReader_yields_known_clockOffset :
    ∃ r, FrameReader.new ⟨preamble ++ [[2, 0, 0, 0, 200, 7], [21, 0, 0, 0, 5, 0, 0, 0, 0,
        1, 0, 0, 0, 0, 0, 0, 0, 2, 0, 0, 0, 0, 0, 0, 0]].flatten, none⟩ = .ok r ∧ ∀ n,
      (r.calls n).1 = (List.range n).map
          (fun i => .ok (knownFrames [.unknown [200, 7], .known (.clockOffset 0 1 2)])[i]?)
        ∧ (r.calls n).2.skipped
          = UInt64.ofNat (passedOver [.unknown [200, 7], .known (.clockOffset 0 1 2)] n) :=
  frameReader_yields_known <| .cons (.unknown (by decide) (by decide)) <|
    .cons (.known (by rfl)) .nil

/-! ## A stream that is cut off -/

/-- How many of the leading parts lie wholly before a cut after `m` bytes. -/
def wholeBefore : List Bytes → Nat → Nat
  | [], _ => 0
  | p :: ps, m => if p.length ≤ m then wholeBefore ps (m - p.length) + 1 else 0

/-- How far past the last part boundary a cut after `m` bytes falls: `0` on a boundary. -/
def bytesInto : List Bytes → Nat → Nat
  | [], _ => 0
  | p :: ps, m => if p.length ≤ m then bytesInto ps (m - p.length) else m

/-- What is left of the stream once the whole parts are gone: nothing on a boundary,
otherwise the front of one frame. -/
theorem calls_cut {frames : List Frame} {parts : List Bytes}
    (h : List.Forall₂ (fun frame p => encode frame = .ok p) frames parts) (m : Nat) :
    ∃ tail, FrameReader.calls (wholeBefore parts m) ⟨⟨parts.flatten.take m, none⟩, k⟩
        = ((frames.take (wholeBefore parts m)).map (fun f => .ok (some f)), ⟨⟨tail, none⟩, k⟩)
      ∧ (bytesInto parts m = 0 ∧ tail = []
        ∨ ∃ payload : Bytes, payload.length ≤ MAX_FRAME_BYTES
          ∧ bytesInto parts m < LENGTH_PREFIX_BYTES + payload.length
          ∧ tail = (leBytes 4 payload.length ++ payload).take (bytesInto parts m)) := by
  induction h generalizing m with
  | nil => exact ⟨[], by simp [wholeBefore, FrameReader.calls], Or.inl ⟨rfl, rfl⟩⟩
  | cons he hrest ih =>
      rename_i frame p frames parts
      obtain ⟨payload, rfl, hlim, hd⟩ := encode_ok he
      by_cases hm : (leBytes 4 payload.length ++ payload).length ≤ m
      · obtain ⟨tail, hcalls, htail⟩ := ih (m - (leBytes 4 payload.length ++ payload).length)
        have hn := @nextFrame_known none k payload
          (parts.flatten.take (m - (leBytes 4 payload.length ++ payload).length)) frame hlim hd
        have htake : (leBytes 4 payload.length ++ payload ++ parts.flatten).take m
            = leBytes 4 payload.length ++ payload ++
              parts.flatten.take (m - (leBytes 4 payload.length ++ payload).length) := by
          rw [List.take_append, List.take_of_length_le hm]
        refine ⟨tail, ?_, by simpa only [bytesInto, if_pos hm] using htail⟩
        simp only [wholeBefore, if_pos hm, List.flatten_cons, htake, FrameReader.calls, hn,
          hcalls, List.take_succ_cons, List.map_cons]
      · refine ⟨(leBytes 4 payload.length ++ payload).take m, ?_, Or.inr ⟨payload, hlim, ?_, ?_⟩⟩
        · simp only [wholeBefore, if_neg hm, FrameReader.calls, List.flatten_cons,
            List.take_zero, List.map_nil]
          rw [List.take_append_of_le_length (by omega)]
        · simp only [bytesInto, if_neg hm, LENGTH_PREFIX_BYTES]
          simp at hm; omega
        · simp only [bytesInto, if_neg hm]

/-- Truncation is reported: on the preamble and the first `m` bytes of the frames, every
frame wholly before the cut is returned, and the call after them returns `None` exactly
when the cut falls on a frame boundary, and an error everywhere else. -/
def TruncationReported (frames : List Frame) (parts : List Bytes) (m : Nat) : Prop :=
  ∃ r, FrameReader.new ⟨preamble ++ parts.flatten.take m, none⟩ = .ok r
    ∧ (r.calls (wholeBefore parts m)).1
        = (frames.take (wholeBefore parts m)).map (fun f => .ok (some f))
    ∧ ((r.calls (wholeBefore parts m)).2.nextFrame.1 = .ok none ↔ bytesInto parts m = 0)
    ∧ (bytesInto parts m ≠ 0 →
        ∃ e, (r.calls (wholeBefore parts m)).2.nextFrame.1 = .error e)

/--
**Truncation is reported exactly when the cut is not inside a length prefix.**
`read_payload` takes the end of the transport anywhere in the four bytes of a prefix for
the end of the stream, also after one, two or three of them.
-/
theorem truncationReported_iff {frames : List Frame} {parts : List Bytes}
    (h : List.Forall₂ (fun frame p => encode frame = .ok p) frames parts) (m : Nat) :
    TruncationReported frames parts m
      ↔ ¬ (0 < bytesInto parts m ∧ bytesInto parts m < LENGTH_PREFIX_BYTES) := by
  obtain ⟨tail, hcalls, htail⟩ := calls_cut (k := 0) h m
  have hnew := @new_preamble none (parts.flatten.take m)
  -- the call after the whole frames, by where the cut falls
  have hlast : (bytesInto parts m < LENGTH_PREFIX_BYTES
        ∧ (FrameReader.nextFrame ⟨⟨tail, none⟩, 0⟩).1 = .ok none)
      ∨ (LENGTH_PREFIX_BYTES ≤ bytesInto parts m
        ∧ ∃ e, (FrameReader.nextFrame ⟨⟨tail, none⟩, 0⟩).1 = .error e) := by
    rcases htail with ⟨hb, rfl⟩ | ⟨payload, hlim, hlt, rfl⟩
    · exact Or.inl ⟨by rw [hb]; decide, by rw [nextFrame_short (by decide)]⟩
    · by_cases hb : bytesInto parts m < LENGTH_PREFIX_BYTES
      · refine Or.inl ⟨hb, ?_⟩
        rw [nextFrame_short (by simp; omega)]
      · refine Or.inr ⟨by omega, ?_⟩
        have : (leBytes 4 payload.length ++ payload).take (bytesInto parts m)
            = leBytes 4 payload.length ++ payload.take (bytesInto parts m - 4) := by
          rw [List.take_append, List.take_of_length_le (by simpa [LENGTH_PREFIX_BYTES] using hb)]
          simp
        rw [this]
        exact nextFrame_cut hlim (by simp only [LENGTH_PREFIX_BYTES] at *; simp; omega)
  constructor
  · rintro ⟨r, hr, -, hnone, herr⟩ ⟨h₀, h₁⟩
    obtain rfl := Except.ok.inj (hnew.symm.trans hr)
    rw [hcalls] at hnone
    rcases hlast with ⟨-, hl⟩ | ⟨hl, -⟩
    · have := hnone.mp hl; omega
    · omega
  · intro hcut
    refine ⟨_, hnew, by rw [hcalls], ?_, ?_⟩
    · rw [hcalls]
      rcases hlast with ⟨hb, hl⟩ | ⟨hb, e, hl⟩
      · exact ⟨fun _ => by omega, fun _ => hl⟩
      · rw [hl]
        simp only [LENGTH_PREFIX_BYTES] at hb
        exact ⟨fun h => absurd h (by simp), fun h => by omega⟩
    · intro hne
      rw [hcalls]
      rcases hlast with ⟨hb, hl⟩ | ⟨hb, hl⟩
      · exact absurd ⟨Nat.pos_of_ne_zero hne, hb⟩ hcut
      · exact hl

/-- One clock observation, cut two bytes into its length prefix: the frame is lost and the
end looks clean. -/
theorem truncation_not_reported : ∃ (frames : List Frame) (parts : List Bytes) (m : Nat),
    List.Forall₂ (fun frame p => encode frame = .ok p) frames parts
      ∧ ¬ TruncationReported frames parts m := by
  refine ⟨[.clockOffset 0 1 2], [[21, 0, 0, 0, 5, 0, 0, 0, 0,
    1, 0, 0, 0, 0, 0, 0, 0, 2, 0, 0, 0, 0, 0, 0, 0]], 2, .cons (by rfl) .nil, ?_⟩
  rintro ⟨r, hr, -, hnone, -⟩
  obtain rfl := Except.ok.inj ((new_preamble [21, 0]).symm.trans hr)
  have h := hnone.mp (by
    show (FrameReader.nextFrame ⟨⟨[21, 0], none⟩, 0⟩).1 = .ok none
    rw [nextFrame_short (by decide)])
  exact absurd h (by decide)

/-- The same stream cut inside the payload: reported. -/
theorem truncationReported_iff_clockOffset :
    TruncationReported [.clockOffset 0 1 2] [[21, 0, 0, 0, 5, 0, 0, 0, 0,
        1, 0, 0, 0, 0, 0, 0, 0, 2, 0, 0, 0, 0, 0, 0, 0]] 7
      ↔ ¬ (0 < bytesInto [[21, 0, 0, 0, 5, 0, 0, 0, 0,
        1, 0, 0, 0, 0, 0, 0, 0, 2, 0, 0, 0, 0, 0, 0, 0]] 7
        ∧ bytesInto [[21, 0, 0, 0, 5, 0, 0, 0, 0,
        1, 0, 0, 0, 0, 0, 0, 0, 2, 0, 0, 0, 0, 0, 0, 0]] 7 < LENGTH_PREFIX_BYTES) :=
  truncationReported_iff (.cons (by rfl) .nil) 7

end Dendro.Replicate
