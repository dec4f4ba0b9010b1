import Dendro.Replicate.Buffer

/-!
# Where a payload ends, and how it is spelled

The decoder looks no further than the fields of a frame (`getFields_local`), so a payload is
delimited by its own fields: cut short or extended it is refused (`payload_delimited`).

A frame that was decoded is written again as the payload it came from, but for one thing. The
decoder inserts the entries of a map one by one, in whatever order and however often their keys
come, where the encoder writes a map in key order: a payload is the canonical one of its frame
exactly where its maps are `InKeyOrder` (`encodeFrame_spells_iff`).
-/

namespace Dendro.Replicate

open Codec

/-! ## Fields that look no further -/

theorem take_local (n : Nat) : Get.Local (Cursor.take n) := Get.Local.take _ n

theorem u8_local : Get.Local Cursor.u8 := (take_local 1).bind fun _ => .pure _

theorem u32_local : Get.Local Cursor.u32 := (take_local 4).bind fun _ => .pure _

theorem u64_local : Get.Local Cursor.u64 := (take_local 8).bind fun _ => .pure _

theorem i64_local : Get.Local Cursor.i64 := (take_local 8).bind fun _ => .pure _

theorem bytes_local : Get.Local Cursor.bytes := u32_local.bind fun len => take_local len.toNat

theorem string_local : Get.Local Cursor.string := by
  refine bytes_local.bind fun raw => ?_
  cases Cursor.fromUtf8 raw with
  | none => exact .throw _
  | some s => exact .pure s

theorem map_local : Get.Local Cursor.map :=
  u32_local.bind fun len =>
    (Get.Local.times (string_local.bind fun _ => string_local.bind fun _ => .pure _)
      len.toNat).bind fun _ => .pure _

/-- A byte that stands for one of two things, and the error for any other. -/
theorem byte_local {α : Type} {k : UInt8 → Get Error α} (h₀ : Get.Local (k 0))
    (h₁ : Get.Local (k 1)) (h : ∀ b, b ≠ 0 → b ≠ 1 → Get.Local (k b)) :
    Get.Local (Cursor.u8 >>= k) := by
  refine u8_local.bind fun b => ?_
  by_cases hb₀ : b = 0
  · exact hb₀ ▸ h₀
  · by_cases hb₁ : b = 1
    · exact hb₁ ▸ h₁
    · exact h b hb₀ hb₁

theorem optBytes_local : Get.Local Cursor.optBytes := by
  refine byte_local (.pure none) (bytes_local.bind fun _ => .pure _) fun b h₀ h₁ => ?_
  split
  · exact absurd rfl h₀
  · exact absurd rfl h₁
  · exact .throw _

theorem bool_local : Get.Local Cursor.bool := by
  refine byte_local (.pure false) (.pure true) fun b h₀ h₁ => ?_
  split
  · exact absurd rfl h₀
  · exact absurd rfl h₁
  · exact .throw _

theorem indexKind_local : Get.Local Cursor.indexKind := by
  refine byte_local (.pure _) (.pure _) fun b h₀ h₁ => ?_
  split
  · exact absurd rfl h₀
  · exact absurd rfl h₁
  · exact .throw _

theorem uuid_local : Get.Local Cursor.uuid := by
  refine optBytes_local.bind fun raw => ?_
  rcases raw with _ | raw
  · exact .pure none
  · dsimp only
    cases Cursor.fromUtf8 raw with
    | none => exact .throw _
    | some s => exact .pure (some s)

theorem row_local : Get.Local Cursor.row :=
  string_local.bind fun _ => i64_local.bind fun _ => i64_local.bind fun _ =>
    bytes_local.bind fun _ => .pure _

/-- The fields of every kind, one case per kind. -/
theorem decodeFields_local {kind : UInt8} {fields : Get Error Frame}
    (h : decodeFields kind = some fields) : Get.Local fields := by
  unfold decodeFields at h
  split at h
  · obtain rfl := Option.some.inj h
    exact u32_local.bind fun _ => uuid_local.bind fun _ => map_local.bind fun _ =>
      map_local.bind fun _ => i64_local.bind fun _ => bool_local.bind fun _ => .pure _
  split at h
  · obtain rfl := Option.some.inj h
    exact u32_local.bind fun _ => string_local.bind fun _ => i64_local.bind fun _ =>
      indexKind_local.bind fun _ => u64_local.bind fun _ => u64_local.bind fun _ =>
        bytes_local.bind fun _ => .pure _
  split at h
  · obtain rfl := Option.some.inj h
    exact u32_local.bind fun _ => u64_local.bind fun _ => u64_local.bind fun _ =>
      u64_local.bind fun _ => u32_local.bind fun count =>
        (row_local.times count.toNat).bind fun _ => .pure _
  split at h
  · obtain rfl := Option.some.inj h
    exact u32_local.bind fun _ => string_local.bind fun _ => u64_local.bind fun _ =>
      i64_local.bind fun _ => i64_local.bind fun _ => bytes_local.bind fun _ =>
        optBytes_local.bind fun _ => .pure _
  split at h
  · obtain rfl := Option.some.inj h
    exact u32_local.bind fun _ => i64_local.bind fun _ => i64_local.bind fun _ => .pure _
  split at h
  · obtain rfl := Option.some.inj h
    exact u32_local.bind fun _ => i64_local.bind fun _ => map_local.bind fun _ =>
      map_local.bind fun _ => .pure _
  · simp at h

/-- **Decoding looks at the fields of the frame and no further.** -/
theorem getFields_local : Get.Local getFields := by
  refine u8_local.bind fun kind => ?_
  cases h : decodeFields kind with
  | none => exact .pure none
  | some fields => exact (decodeFields_local h).bind fun _ => .pure _

/-! ## Where a payload ends -/

/-- A payload that is decoded is filled by its fields. -/
theorem decodeKnown_eq_some {payload : Bytes} {frame : Frame} :
    decodeKnown payload = .ok (some frame) ↔
      Get.on getFields payload = .ok (some frame, []) := by
  constructor
  · intro h
    rcases hget : Get.on getKnown payload with e | ⟨known, rest⟩
    · rw [decodeKnown, hget] at h
      simp [Except.map] at h
    · rw [decodeKnown, hget] at h
      obtain rfl : known = some frame := Except.ok.inj h
      obtain ⟨found, mid, hfields, hrest⟩ := Get.on_bind_eq_ok.mp hget
      rcases found with _ | found
      · exact absurd (Prod.mk.inj (Except.ok.inj hrest)).1 (by simp)
      · obtain ⟨_, left, hfinish, hrest⟩ := Get.on_bind_eq_ok.mp hrest
        obtain ⟨hfound, -⟩ := Prod.mk.inj (Except.ok.inj hrest)
        have hmid : mid = [] := by
          by_contra hne
          change (if mid = [] then _ else _) = _ at hfinish
          rw [if_neg hne] at hfinish
          simp at hfinish
        rw [hfields, hmid, hfound]
  · intro h
    have hget : Get.on getKnown payload = .ok (some frame, []) :=
      Get.on_bind_eq_ok.mpr ⟨some frame, [], h, rfl⟩
    rw [decodeKnown, hget]
    rfl

theorem getFields_of_unknown {payload : Bytes} (h : decodeKnown payload = .ok none) :
    ∃ rest, Get.on getFields payload = .ok (none, rest) := by
  rcases hget : Get.on getKnown payload with e | ⟨known, rest⟩
  · rw [decodeKnown, hget] at h
    simp [Except.map] at h
  · rw [decodeKnown, hget] at h
    obtain rfl : known = none := Except.ok.inj h
    obtain ⟨found, mid, hfields, hrest⟩ := Get.on_bind_eq_ok.mp hget
    rcases found with _ | found
    · exact ⟨mid, hfields⟩
    · obtain ⟨_, left, -, hrest⟩ := Get.on_bind_eq_ok.mp hrest
      exact absurd (Prod.mk.inj (Except.ok.inj hrest)).1 (by simp)

/-- A payload whose fields are refused. The other refusal of `decode_payload` is of an unknown
kind, whose text is about the payload's first byte; here it does not look at any. -/
def Refused (payload : Bytes) : Prop :=
  ∃ e, decodeKnown payload = .error e ∧ decodePayload payload = .error e

theorem refused_of_ne {payload : Bytes} (h : ∀ known, decodeKnown payload ≠ .ok known) :
    Refused payload := by
  rcases hknown : decodeKnown payload with e | known
  · refine ⟨e, hknown, ?_⟩
    rw [decodePayload, hknown]
    rfl
  · exact absurd hknown (h known)

/-- **Payloads are self-delimiting.** What `encode_frame` appends is refused when it is cut
short anywhere, down to nothing, and when anything follows it. -/
theorem payload_delimited {frame : Frame} {out out' : Bytes}
    (h : Put.on (encodeFrame frame) out = (.ok (), out')) :
    ∃ payload, out' = out ++ (leBytes 4 payload.length ++ payload) ∧
      (∀ cut, cut <+: payload → cut ≠ payload → Refused cut) ∧
      ∀ more, more ≠ [] → Refused (payload ++ more) := by
  obtain ⟨payload, hout, -, hreads⟩ := encodeFrame_appends h
  have hwhole : Get.on getFields payload = .ok (some frame, []) := by simpa using hreads []
  refine ⟨payload, hout, fun cut hcut hne => refused_of_ne fun known hknown => ?_,
    fun more hmore => refused_of_ne fun known hknown => ?_⟩
  · rcases known with _ | found
    · -- the cut keeps the kind byte, which is a known one
      obtain ⟨rest, hcutFields⟩ := getFields_of_unknown hknown
      obtain ⟨more, rfl⟩ := hcut
      have hunknown := getFields_local cut none rest more hcutFields
      rw [hwhole] at hunknown
      simp at hunknown
    · exact hne (hreads.proper_prefix getFields_local hcut (decodeKnown_eq_some.mp hknown))
  · have hextended : Get.on getFields (payload ++ more) = .ok (some frame, more) := hreads more
    rcases known with _ | found
    · obtain ⟨rest, hunknown⟩ := getFields_of_unknown hknown
      rw [hextended] at hunknown
      simp at hunknown
    · have hfilled := decodeKnown_eq_some.mp hknown
      rw [hextended] at hfilled
      exact hmore (Prod.mk.inj (Except.ok.inj hfilled)).2

/-- A clock observation. -/
theorem payload_delimited_clockOffset :
    ∃ payload : Bytes, ([21, 0, 0, 0, 5, 4, 0, 0, 0, 1, 0, 0, 0, 0, 0, 0, 0, 2, 0, 0, 0, 0, 0, 0,
        0] : Bytes) = [] ++ (leBytes 4 payload.length ++ payload) ∧
      (∀ cut, cut <+: payload → cut ≠ payload → Refused cut) ∧
      ∀ more, more ≠ [] → Refused (payload ++ more) :=
  @payload_delimited (.clockOffset 4 1 2) [] _ (by decide)

/-! ## Fields that are spelled one way -/

section

variable {bs rest : Bytes}

theorem take_spells {n : Nat} {v : Bytes} (h : Get.on (Cursor.take n) bs = .ok (v, rest)) :
    v.length = n ∧ bs = v ++ rest := by
  rw [Cursor.take, Get.on_take] at h
  split at h
  · simp at h
  · rename_i hn
    obtain ⟨rfl, rfl⟩ := Prod.mk.inj (Except.ok.inj h)
    have hlen : n ≤ bs.length := Nat.not_lt.mp hn
    exact ⟨List.length_take_of_le hlen, (List.take_append_drop n bs).symm⟩

/-- A fixed-width word is spelled by the bytes of its width. -/
theorem word_spells {α : Type} {n : Nat} {v : α} {conv : Bytes → α} {enc : α → Bytes}
    (h : Get.on (Cursor.take n >>= fun raw => pure (conv raw)) bs = .ok (v, rest))
    (hconv : ∀ raw : Bytes, raw.length = n → enc (conv raw) = raw) :
    Put.Spells (Put.extend (enc v) : Put Error Unit) bs rest := by
  obtain ⟨raw, mid, htake, hv⟩ := Get.on_bind_eq_ok.mp h
  obtain ⟨rfl, rfl⟩ := Prod.mk.inj (Except.ok.inj hv)
  obtain ⟨hlen, rfl⟩ := take_spells htake
  rw [hconv raw hlen]
  exact .extend raw _

theorem u8_spells {v : UInt8} (h : Get.on Cursor.u8 bs = .ok (v, rest)) :
    Put.Spells (putU8 v) bs rest := by
  refine @word_spells bs rest UInt8 1 v (List.headD · 0) (fun v => [v]) h fun raw hlen => ?_
  obtain ⟨b, rfl⟩ := List.length_eq_one_iff.mp hlen
  rfl

theorem u32_spells {v : UInt32} (h : Get.on Cursor.u32 bs = .ok (v, rest)) :
    Put.Spells (putU32 v) bs rest :=
  word_spells h fun _ => u32Bytes_u32OfBytes

theorem u64_spells {v : UInt64} (h : Get.on Cursor.u64 bs = .ok (v, rest)) :
    Put.Spells (putU64 v) bs rest :=
  word_spells h fun _ => u64Bytes_u64OfBytes

theorem i64_spells {v : Int64} (h : Get.on Cursor.i64 bs = .ok (v, rest)) :
    Put.Spells (putI64 v) bs rest :=
  word_spells h fun _ => i64Bytes_i64OfBytes

/-- A length that was read is one that can be written. -/
theorem putLen_spells {len : UInt32} {n : Nat} (e : Error)
    (h : Get.on Cursor.u32 bs = .ok (len, rest)) (hn : n = len.toNat) :
    Put.Spells (putLen n e) bs rest := by
  have hlt : ¬ n ≥ 2 ^ 32 := Nat.not_le.mpr (hn ▸ len.toNat_lt)
  rw [putLen, if_neg hlt, hn, UInt32.ofNat_toNat]
  exact u32_spells h

theorem bytes_spells {v : Bytes} (h : Get.on Cursor.bytes bs = .ok (v, rest)) :
    Put.Spells (putBytes v) bs rest := by
  obtain ⟨len, mid, hlen, htake⟩ := Get.on_bind_eq_ok.mp h
  obtain ⟨hv, rfl⟩ := take_spells htake
  exact (putLen_spells _ hlen hv).bind (.extend v rest)

/-- A string is read from its own UTF-8 bytes. -/
theorem utf8_of_fromUtf8 {raw : Bytes} {s : String} (h : Cursor.fromUtf8 raw = some s) :
    utf8 s = raw := by
  unfold Cursor.fromUtf8 String.fromUTF8? at h
  split at h
  · obtain rfl := Option.some.inj h
    rfl
  · simp at h

theorem string_spells {v : String} (h : Get.on Cursor.string bs = .ok (v, rest)) :
    Put.Spells (putStr v) bs rest := by
  obtain ⟨raw, mid, hraw, hv⟩ := Get.on_bind_eq_ok.mp h
  rcases hs : Cursor.fromUtf8 raw with _ | s
  · rw [hs] at hv
    simp at hv
  · rw [hs] at hv
    obtain ⟨rfl, rfl⟩ := Prod.mk.inj (Except.ok.inj hv)
    rw [putStr, utf8_of_fromUtf8 hs]
    exact bytes_spells hraw

theorem optBytes_spells {v : Option Bytes} (h : Get.on Cursor.optBytes bs = .ok (v, rest)) :
    Put.Spells (putOptBytes v) bs rest := by
  obtain ⟨b, mid, hb, hv⟩ := Get.on_bind_eq_ok.mp h
  split at hv
  · obtain ⟨rfl, rfl⟩ := Prod.mk.inj (Except.ok.inj hv)
    exact u8_spells hb
  · obtain ⟨raw, mid', hraw, hv⟩ := Get.on_bind_eq_ok.mp hv
    obtain ⟨rfl, rfl⟩ := Prod.mk.inj (Except.ok.inj hv)
    exact (u8_spells hb).bind (bytes_spells hraw)
  · simp at hv

theorem bool_spells {v : Bool} (h : Get.on Cursor.bool bs = .ok (v, rest)) :
    Put.Spells (putU8 (boolByte v)) bs rest := by
  obtain ⟨b, mid, hb, hv⟩ := Get.on_bind_eq_ok.mp h
  split at hv
  · obtain ⟨rfl, rfl⟩ := Prod.mk.inj (Except.ok.inj hv)
    exact u8_spells hb
  · obtain ⟨rfl, rfl⟩ := Prod.mk.inj (Except.ok.inj hv)
    exact u8_spells hb
  · simp at hv

theorem indexKind_spells {v : IndexKind} (h : Get.on Cursor.indexKind bs = .ok (v, rest)) :
    Put.Spells (putU8 (indexKindByte v)) bs rest := by
  obtain ⟨b, mid, hb, hv⟩ := Get.on_bind_eq_ok.mp h
  split at hv
  · obtain ⟨rfl, rfl⟩ := Prod.mk.inj (Except.ok.inj hv)
    exact u8_spells hb
  · obtain ⟨rfl, rfl⟩ := Prod.mk.inj (Except.ok.inj hv)
    exact u8_spells hb
  · simp at hv

theorem uuid_spells {v : Option String} (h : Get.on Cursor.uuid bs = .ok (v, rest)) :
    Put.Spells (putOptBytes (v.map utf8)) bs rest := by
  obtain ⟨raw, mid, hraw, hv⟩ := Get.on_bind_eq_ok.mp h
  rcases raw with _ | raw
  · obtain ⟨rfl, rfl⟩ := Prod.mk.inj (Except.ok.inj hv)
    exact optBytes_spells hraw
  · dsimp only at hv
    rcases hs : Cursor.fromUtf8 raw with _ | s
    · rw [hs] at hv
      simp at hv
    · rw [hs] at hv
      obtain ⟨rfl, rfl⟩ := Prod.mk.inj (Except.ok.inj hv)
      rw [Option.map_some, utf8_of_fromUtf8 hs]
      exact optBytes_spells hraw

theorem row_spells {v : WalRow} (h : Get.on Cursor.row bs = .ok (v, rest)) :
    Put.Spells (putRow v) bs rest := by
  obtain ⟨stream, b₁, hstream, h⟩ := Get.on_bind_eq_ok.mp h
  obtain ⟨ts, b₂, hts, h⟩ := Get.on_bind_eq_ok.mp h
  obtain ⟨wall_offset, b₃, hoffset, h⟩ := Get.on_bind_eq_ok.mp h
  obtain ⟨row, b₄, hrow, h⟩ := Get.on_bind_eq_ok.mp h
  obtain ⟨rfl, rfl⟩ := Prod.mk.inj (Except.ok.inj h)
  exact (string_spells hstream).bind <| (i64_spells hts).bind <| (i64_spells hoffset).bind <|
    bytes_spells hrow

/-! ## Maps -/

/-- The entries of a map as they stand in a payload. -/
def Cursor.pairs : Get Error (List (String × String)) := do
  let len ← Cursor.u32
  Get.times (do
    let k ← Cursor.string
    let v ← Cursor.string
    return (k, v)) len.toNat

/-- Entries as a map lists them: in key order, each key once. -/
def KeyOrdered (entries : List (String × String)) : Prop :=
  entries.Pairwise fun a b => a.1 < b.1

theorem map_pairs {v : StringMap} (h : Get.on Cursor.map bs = .ok (v, rest)) :
    ∃ entries, Get.on Cursor.pairs bs = .ok (entries, rest) ∧ v = OrdMap.ofList entries := by
  obtain ⟨len, mid, hlen, h⟩ := Get.on_bind_eq_ok.mp h
  obtain ⟨entries, mid', hentries, h⟩ := Get.on_bind_eq_ok.mp h
  obtain ⟨rfl, rfl⟩ := Prod.mk.inj (Except.ok.inj h)
  exact ⟨entries, Get.on_bind_eq_ok.mpr ⟨len, mid, hlen, hentries⟩, rfl⟩

/-- A map whose entries stood in key order is written as they stood. -/
theorem pairs_spells {entries : List (String × String)}
    (h : Get.on Cursor.pairs bs = .ok (entries, rest)) (hsorted : KeyOrdered entries) :
    Put.Spells (putMap (OrdMap.ofList entries)) bs rest := by
  have hentry : ∀ bs e rest, Get.on (do
      let k ← Cursor.string
      let v ← Cursor.string
      return (k, v)) bs = .ok (e, rest) →
        Put.Spells (do putStr e.1; putStr e.2 : Put Error Unit) bs rest := by
    intro bs e rest h
    obtain ⟨k, mid, hk, h⟩ := Get.on_bind_eq_ok.mp h
    obtain ⟨v, mid', hv, h⟩ := Get.on_bind_eq_ok.mp h
    obtain ⟨rfl, rfl⟩ := Prod.mk.inj (Except.ok.inj h)
    exact (string_spells hk).bind (string_spells hv)
  have hlist : (OrdMap.ofList entries).entries = entries := by
    have hnil : ((∅ : StringMap).entries ++ entries).Pairwise fun a b => a.1 < b.1 := hsorted
    exact OrdMap.entries_insertAll_of_sorted hnil
  obtain ⟨len, mid, hlen, h⟩ := Get.on_bind_eq_ok.mp h
  obtain ⟨hcount, hspells⟩ := Put.Spells.forM hentry h
  rw [putMap, hlist]
  exact (putLen_spells _ hlen hcount).bind hspells

theorem putMap_listed (v : StringMap) : RoundTrips (putMap v) Cursor.pairs v.entries :=
  putLen_bind_roundTrips fun len hlen => by
    rw [hlen]
    have hentry : ∀ e ∈ v.entries, RoundTrips (do putStr e.1; putStr e.2)
        (do let k ← Cursor.string; let v ← Cursor.string; return (k, v)) e := fun e _ =>
      (putStr_roundTrips e.1).bind ((putStr_roundTrips e.2).map (Prod.mk e.1))
    simpa using RoundTrips.forM (v := id) hentry

end

/-! ## Payloads -/

/-- The maps of a payload, the entries of each as they stand there. -/
def getListed : Get Error (List (List (String × String))) := do
  let kind ← Cursor.u8
  if kind = KIND_HANDSHAKE then
    let _ ← Cursor.u32
    let _ ← Cursor.uuid
    let labels ← Cursor.pairs
    let metadata ← Cursor.pairs
    return [labels, metadata]
  else if kind = KIND_SOURCE_UPDATE then
    let _ ← Cursor.u32
    let _ ← Cursor.i64
    let labels ← Cursor.pairs
    let metadata ← Cursor.pairs
    return [labels, metadata]
  else return []

/-- Every map of a payload stands there in key order, each key once. -/
def InKeyOrder (payload : Bytes) : Prop :=
  ∀ maps rest, Get.on getListed payload = .ok (maps, rest) → ∀ entries ∈ maps, KeyOrdered entries

/-- **A decoded payload whose maps stand in key order is the one its frame is written as**, one
case per kind. -/
theorem payload_spells {payload : Bytes} {frame : Frame}
    (h : Get.on getFields payload = .ok (some frame, [])) (horder : InKeyOrder payload) :
    Put.Spells (putPayload frame) payload [] := by
  obtain ⟨kind, b₀, hkind, h⟩ := Get.on_bind_eq_ok.mp h
  have hbyte := u8_spells hkind
  rcases hfields : decodeFields kind with _ | fields
  · rw [hfields] at h
    exact absurd (Prod.mk.inj (Except.ok.inj h)).1 (by simp)
  rw [hfields] at h
  obtain ⟨found, left, hread, hend⟩ := Get.on_bind_eq_ok.mp h
  obtain ⟨hfound, rfl⟩ := Prod.mk.inj (Except.ok.inj hend)
  obtain rfl := Option.some.inj hfound
  unfold decodeFields at hfields
  split at hfields
  · rename_i hk
    obtain rfl := Option.some.inj hfields
    obtain ⟨source, b₁, hsource, hread⟩ := Get.on_bind_eq_ok.mp hread
    obtain ⟨uuid, b₂, huuid, hread⟩ := Get.on_bind_eq_ok.mp hread
    obtain ⟨labels, b₃, hlabels, hread⟩ := Get.on_bind_eq_ok.mp hread
    obtain ⟨metadata, b₄, hmetadata, hread⟩ := Get.on_bind_eq_ok.mp hread
    obtain ⟨anchor, b₅, hanchor, hread⟩ := Get.on_bind_eq_ok.mp hread
    obtain ⟨complete, b₆, hcomplete, hread⟩ := Get.on_bind_eq_ok.mp hread
    obtain ⟨rfl, rfl⟩ := Prod.mk.inj (Except.ok.inj hread)
    obtain ⟨labels, hpairs, rfl⟩ := map_pairs hlabels
    obtain ⟨metadata, hpairs', rfl⟩ := map_pairs hmetadata
    have hlisted : Get.on getListed payload = .ok ([labels, metadata], b₄) := by
      refine Get.on_bind_eq_ok.mpr ⟨kind, b₀, hkind, ?_⟩
      rw [if_pos hk]
      exact Get.on_bind_eq_ok.mpr ⟨source, b₁, hsource, Get.on_bind_eq_ok.mpr ⟨uuid, b₂, huuid,
        Get.on_bind_eq_ok.mpr ⟨labels, b₃, hpairs,
          Get.on_bind_eq_ok.mpr ⟨metadata, b₄, hpairs', rfl⟩⟩⟩⟩
    have hordered := horder _ _ hlisted
    rw [hk] at hbyte
    exact hbyte.bind <| (u32_spells hsource).bind <| (uuid_spells huuid).bind <|
      (pairs_spells hpairs (hordered labels (by simp))).bind <|
      (pairs_spells hpairs' (hordered metadata (by simp))).bind <|
      (i64_spells hanchor).bind (bool_spells hcomplete)
  split at hfields
  · rename_i _ hk
    obtain rfl := Option.some.inj hfields
    obtain ⟨source, b₁, hsource, hread⟩ := Get.on_bind_eq_ok.mp hread
    obtain ⟨stream, b₂, hstream, hread⟩ := Get.on_bind_eq_ok.mp hread
    obtain ⟨ts, b₃, hts, hread⟩ := Get.on_bind_eq_ok.mp hread
    obtain ⟨index, b₄, hindex, hread⟩ := Get.on_bind_eq_ok.mp hread
    obtain ⟨state₀, b₅, hstate₀, hread⟩ := Get.on_bind_eq_ok.mp hread
    obtain ⟨state₁, b₆, hstate₁, hread⟩ := Get.on_bind_eq_ok.mp hread
    obtain ⟨blob, b₇, hblob, hread⟩ := Get.on_bind_eq_ok.mp hread
    obtain ⟨rfl, rfl⟩ := Prod.mk.inj (Except.ok.inj hread)
    rw [hk] at hbyte
    exact hbyte.bind <| (u32_spells hsource).bind <| (string_spells hstream).bind <|
      (i64_spells hts).bind <| (indexKind_spells hindex).bind <| (u64_spells hstate₀).bind <|
      (u64_spells hstate₁).bind (bytes_spells hblob)
  split at hfields
  · rename_i _ _ hk
    obtain rfl := Option.some.inj hfields
    obtain ⟨source, b₁, hsource, hread⟩ := Get.on_bind_eq_ok.mp hread
    obtain ⟨seq, b₂, hseq, hread⟩ := Get.on_bind_eq_ok.mp hread
    obtain ⟨state₀, b₃, hstate₀, hread⟩ := Get.on_bind_eq_ok.mp hread
    obtain ⟨state₁, b₄, hstate₁, hread⟩ := Get.on_bind_eq_ok.mp hread
    obtain ⟨count, b₅, hcount, hread⟩ := Get.on_bind_eq_ok.mp hread
    obtain ⟨rows, b₆, hrows, hread⟩ := Get.on_bind_eq_ok.mp hread
    obtain ⟨rfl, rfl⟩ := Prod.mk.inj (Except.ok.inj hread)
    obtain ⟨hlen, hspells⟩ := Put.Spells.forM (fun _ _ _ => row_spells) hrows
    rw [hk] at hbyte
    exact hbyte.bind <| (u32_spells hsource).bind <| (u64_spells hseq).bind <|
      (u64_spells hstate₀).bind <| (u64_spells hstate₁).bind <|
      (putLen_spells _ hcount hlen).bind hspells
  split at hfields
  · rename_i _ _ _ hk
    obtain rfl := Option.some.inj hfields
    obtain ⟨source, b₁, hsource, hread⟩ := Get.on_bind_eq_ok.mp hread
    obtain ⟨stream, b₂, hstream, hread⟩ := Get.on_bind_eq_ok.mp hread
    obtain ⟨rows, b₃, hrows, hread⟩ := Get.on_bind_eq_ok.mp hread
    obtain ⟨first_ts, b₄, hfirst, hread⟩ := Get.on_bind_eq_ok.mp hread
    obtain ⟨last_ts, b₅, hlast, hread⟩ := Get.on_bind_eq_ok.mp hread
    obtain ⟨bytes, b₆, hbytes, hread⟩ := Get.on_bind_eq_ok.mp hread
    obtain ⟨index, b₇, hindex, hread⟩ := Get.on_bind_eq_ok.mp hread
    obtain ⟨rfl, rfl⟩ := Prod.mk.inj (Except.ok.inj hread)
    rw [hk] at hbyte
    exact hbyte.bind <| (u32_spells hsource).bind <| (string_spells hstream).bind <|
      (u64_spells hrows).bind <| (i64_spells hfirst).bind <| (i64_spells hlast).bind <|
      (bytes_spells hbytes).bind (optBytes_spells hindex)
  split at hfields
  · rename_i _ _ _ _ hk
    obtain rfl := Option.some.inj hfields
    obtain ⟨source, b₁, hsource, hread⟩ := Get.on_bind_eq_ok.mp hread
    obtain ⟨ts, b₂, hts, hread⟩ := Get.on_bind_eq_ok.mp hread
    obtain ⟨offset_ns, b₃, hoffset, hread⟩ := Get.on_bind_eq_ok.mp hread
    obtain ⟨rfl, rfl⟩ := Prod.mk.inj (Except.ok.inj hread)
    rw [hk] at hbyte
    exact hbyte.bind <| (u32_spells hsource).bind <| (i64_spells hts).bind (i64_spells hoffset)
  split at hfields
  · rename_i hnot _ _ _ _ hk
    obtain rfl := Option.some.inj hfields
    obtain ⟨source, b₁, hsource, hread⟩ := Get.on_bind_eq_ok.mp hread
    obtain ⟨ts, b₂, hts, hread⟩ := Get.on_bind_eq_ok.mp hread
    obtain ⟨labels, b₃, hlabels, hread⟩ := Get.on_bind_eq_ok.mp hread
    obtain ⟨metadata, b₄, hmetadata, hread⟩ := Get.on_bind_eq_ok.mp hread
    obtain ⟨rfl, rfl⟩ := Prod.mk.inj (Except.ok.inj hread)
    obtain ⟨labels, hpairs, rfl⟩ := map_pairs hlabels
    obtain ⟨metadata, hpairs', rfl⟩ := map_pairs hmetadata
    have hlisted : Get.on getListed payload = .ok ([labels, metadata], []) := by
      refine Get.on_bind_eq_ok.mpr ⟨kind, b₀, hkind, ?_⟩
      rw [if_neg hnot, if_pos hk]
      exact Get.on_bind_eq_ok.mpr ⟨source, b₁, hsource, Get.on_bind_eq_ok.mpr ⟨ts, b₂, hts,
        Get.on_bind_eq_ok.mpr ⟨labels, b₃, hpairs,
          Get.on_bind_eq_ok.mpr ⟨metadata, _, hpairs', rfl⟩⟩⟩⟩
    have hordered := horder _ _ hlisted
    rw [hk] at hbyte
    exact hbyte.bind <| (u32_spells hsource).bind <| (i64_spells hts).bind <|
      (pairs_spells hpairs (hordered labels (by simp))).bind
        (pairs_spells hpairs' (hordered metadata (by simp)))
  · simp at hfields

/-- The maps a frame carries. -/
def Frame.maps : Frame → List StringMap
  | .handshake _ _ labels metadata .. => [labels, metadata]
  | .sourceUpdate _ _ labels metadata => [labels, metadata]
  | _ => []

/-- The maps of a frame are listed in what it is written as, one case per kind. -/
theorem putPayload_listed (frame : Frame) :
    Starts (putPayload frame) getListed (frame.maps.map (·.entries)) := by
  cases frame with
  | handshake source uuid labels metadata anchor complete =>
      exact (putU8_roundTrips KIND_HANDSHAKE).bind_starts <|
        (putU32_roundTrips source).bind_starts <| (uuid_roundTrips uuid).bind_starts <|
        (putMap_listed labels).bind_starts <| (putMap_listed metadata).bind_starts <|
        ((putI64_appends anchor).bind fun _ => putU8_appends _).starts _
  | index source stream ts kind state blob =>
      exact (putU8_roundTrips KIND_INDEX).bind_starts <| Put.Appends.starts
        ((putU32_appends _).bind fun _ => (putStr_appends _).bind fun _ =>
          (putI64_appends _).bind fun _ => (putU8_appends _).bind fun _ =>
          (putU64_appends _).bind fun _ => (putU64_appends _).bind fun _ =>
          putBytes_appends _) _
  | rows source seq index_state rows =>
      exact (putU8_roundTrips KIND_ROWS).bind_starts <| Put.Appends.starts
        ((putU32_appends _).bind fun _ => (putU64_appends _).bind fun _ =>
          (putU64_appends _).bind fun _ => (putU64_appends _).bind fun _ =>
          (putLen_appends _ _).bind fun _ => .forM putRow_appends rows) _
  | segment source stream seg_meta bytes caller_index =>
      exact (putU8_roundTrips KIND_SEGMENT).bind_starts <| Put.Appends.starts
        ((putU32_appends _).bind fun _ => (putStr_appends _).bind fun _ =>
          (putU64_appends _).bind fun _ => (putI64_appends _).bind fun _ =>
          (putI64_appends _).bind fun _ => (putBytes_appends _).bind fun _ =>
          putOptBytes_appends _) _
  | clockOffset source ts offset_ns =>
      exact (putU8_roundTrips KIND_CLOCK_OFFSET).bind_starts <| Put.Appends.starts
        ((putU32_appends _).bind fun _ => (putI64_appends _).bind fun _ => putI64_appends _) _
  | sourceUpdate source ts labels metadata =>
      exact (putU8_roundTrips KIND_SOURCE_UPDATE).bind_starts <|
        (putU32_roundTrips source).bind_starts <| (putI64_roundTrips ts).bind_starts <|
        (putMap_listed labels).bind_starts <| ((putMap_listed metadata).map _).starts

/-- A payload that a frame is written as has its maps in key order. -/
theorem inKeyOrder_of_written {frame : Frame} {out payload : Bytes}
    (h : Put.on (putPayload frame) out = (.ok (), out ++ payload)) : InKeyOrder payload := by
  obtain ⟨enc, left, henc, hlisted⟩ := putPayload_listed frame _ _ h
  obtain rfl : payload = enc := List.append_cancel_left henc
  intro maps rest hmaps entries hentries
  rw [hlisted] at hmaps
  obtain ⟨rfl, -⟩ := Prod.mk.inj (Except.ok.inj hmaps)
  obtain ⟨map, -, rfl⟩ := List.mem_map.mp hentries
  exact map.sorted

theorem decodePayload_eq_ok {payload : Bytes} {frame : Frame} :
    decodePayload payload = .ok frame ↔ Get.on getFields payload = .ok (some frame, []) := by
  rw [← decodeKnown_eq_some, decodePayload]
  rcases decodeKnown payload with e | known
  · exact ⟨fun h => absurd h (by simp [bind, Except.bind]), fun h => absurd h (by simp)⟩
  · cases known with
    | none => exact ⟨fun h => absurd h (by simp [bind, Except.bind]), fun h => absurd h (by simp)⟩
    | some found =>
        constructor
        · intro h
          exact congrArg (fun f => Except.ok (some f)) (Except.ok.inj h)
        · intro h
          exact congrArg Except.ok (Option.some.inj (Except.ok.inj h))

/-- **A decoded payload is the canonical one of its frame exactly where its maps stand in key
order.** -/
theorem encodeFrame_spells_iff {payload : Bytes} {frame : Frame}
    (hlimit : payload.length ≤ MAX_FRAME_BYTES) (h : decodePayload payload = .ok frame) :
    (∀ out, Put.on (encodeFrame frame) out =
        (.ok (), out ++ (leBytes 4 payload.length ++ payload))) ↔ InKeyOrder payload := by
  constructor
  · intro hencode
    have hwhole := hencode []
    rw [on_encodeFrame] at hwhole
    obtain ⟨enc, henc⟩ := putPayload_appends frame ([] ++ u32Bytes 0)
    rcases hp : Put.on (putPayload frame) ([] ++ u32Bytes 0) with ⟨e | u, mid⟩
    · rw [hp] at hwhole
      simp at hwhole
    · rw [hp] at hwhole henc
      obtain rfl : mid = [] ++ u32Bytes 0 ++ enc := henc
      dsimp only at hwhole
      split at hwhole
      · simp at hwhole
      · -- behind two prefixes of one width stands the same payload
        have hpatched := (Prod.mk.inj hwhole).2
        rw [List.append_assoc, patch_append (by simp)] at hpatched
        obtain ⟨-, hpayload⟩ := List.append_inj (List.append_cancel_left hpatched) (by simp)
        exact inKeyOrder_of_written (hpayload ▸ hp)
  · intro horder out
    obtain ⟨enc, henc, hwritten⟩ := payload_spells (decodePayload_eq_ok.mp h) horder
    rw [List.append_nil] at henc
    subst henc
    have hbody : (out ++ u32Bytes 0 ++ payload).length - (out.length + 4) = payload.length := by
      simp only [List.length_append, length_u32Bytes]
      omega
    have hlen : (UInt32.ofNat payload.length).toNat = payload.length :=
      UInt32.toNat_ofNat_of_lt' (by simp only [MAX_FRAME_BYTES, UInt32.size] at *; omega)
    rw [on_encodeFrame, hwritten]
    dsimp only
    rw [hbody, if_neg (Nat.not_lt.mpr hlimit), List.append_assoc, patch_append (by simp), u32Bytes,
      hlen]

/-- An update whose one label stands in order. -/
theorem encodeFrame_spells_iff_update :
    (∀ out, Put.on (encodeFrame (.sourceUpdate 0 0 (OrdMap.ofList [("", "")]) ∅)) out =
      (.ok (), out ++ (leBytes 4 29 ++ [6, 0, 0, 0, 0, 0, 0, 0, 0, 0, 0, 0, 0,
        1, 0, 0, 0, 0, 0, 0, 0, 0, 0, 0, 0, 0, 0, 0, 0]))) ↔
    InKeyOrder [6, 0, 0, 0, 0, 0, 0, 0, 0, 0, 0, 0, 0, 1, 0, 0, 0, 0, 0, 0, 0, 0, 0, 0, 0,
      0, 0, 0, 0] :=
  @encodeFrame_spells_iff [6, 0, 0, 0, 0, 0, 0, 0, 0, 0, 0, 0, 0, 1, 0, 0, 0, 0, 0, 0, 0, 0, 0, 0,
    0, 0, 0, 0, 0] (.sourceUpdate 0 0 (OrdMap.ofList [("", "")]) ∅) (by decide) (by decide +kernel)

/-- An update that lists the label `b` before the label `a`: the payload is decoded, and its frame
is written with `a` first. -/
theorem encodeFrame_respells :
    decodePayload [6, 0, 0, 0, 0, 0, 0, 0, 0, 0, 0, 0, 0, 2, 0, 0, 0, 1, 0, 0, 0, 98, 0, 0, 0, 0,
        1, 0, 0, 0, 97, 0, 0, 0, 0, 0, 0, 0, 0] =
      .ok (.sourceUpdate 0 0 (OrdMap.ofList [("a", ""), ("b", "")]) ∅) ∧
    Put.on (encodeFrame (.sourceUpdate 0 0 (OrdMap.ofList [("a", ""), ("b", "")]) ∅)) [] ≠
      (.ok (), [] ++ (leBytes 4 39 ++ [6, 0, 0, 0, 0, 0, 0, 0, 0, 0, 0, 0, 0, 2, 0, 0, 0,
        1, 0, 0, 0, 98, 0, 0, 0, 0, 1, 0, 0, 0, 97, 0, 0, 0, 0, 0, 0, 0, 0])) := by
  decide +kernel

end Dendro.Replicate
