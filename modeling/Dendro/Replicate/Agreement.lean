import Dendro.Replicate.Finish
import Dendro.Replicate.Identity

/-!
# The two ends agree

What a frame of a connection may say is a function of the frames before it (`InTurn`): ordinals are
handed out in order, a source's `rows` are numbered from 0, its first entry is `full`, and the
declared state is the hash of all its entries. A subscriber that is handed every frame in order
keeps the same three values of each source (`Follows`), so it has nothing to skip and no gap to
report, whatever else fails at its end.
-/

namespace Dendro.Replicate

open Dendro SubscribeM

/-! ## What the frames before a frame determine -/

/-- Whether a frame introduces a source. -/
def Frame.isHandshake : Frame → Bool
  | .handshake .. => true
  | _ => false

/-- Whether a frame carries an index entry. -/
def Frame.isIndex : Frame → Bool
  | .index .. => true
  | _ => false

/-- The frames of one source. -/
def framesOf (source : UInt32) (fs : List Frame) : List Frame := fs.filter (·.source = source)

/-- How many sources some frames introduce. -/
def introductions (fs : List Frame) : Nat := fs.countP Frame.isHandshake

/-- How many `rows` frames a source has sent. -/
def rowsSent (source : UInt32) (fs : List Frame) : Nat := (framesOf source fs).countP Frame.isRows

/-- Whether a source has sent an index entry. -/
def entrySent (source : UInt32) (fs : List Frame) : Bool := (framesOf source fs).any Frame.isIndex

/-- The index state after a frame. -/
def chained (state : IndexState) : Frame → IndexState
  | .index _ _ ts _ _ blob => foldIndexState state ts blob
  | _ => state

/-- The hash of a source's index entries. -/
def entriesHash (source : UInt32) (fs : List Frame) : IndexState :=
  (framesOf source fs).foldl chained NO_INDEX_STATE

/-- Whether a source was introduced. -/
def Introduces (source : UInt32) (fs : List Frame) : Prop :=
  ∃ f ∈ fs, f.isHandshake = true ∧ f.source = source

/-- **A frame in turn**, after the frames before it. -/
def InTurn (before : List Frame) : Frame → Prop
  | .handshake source .. => source.toNat = introductions before
  | .index source _ ts kind state blob => Introduces source before ∧
      kind = entryKind (entrySent source before) ∧
      state = foldIndexState (entriesHash source before) ts blob
  | .rows source seq index_state _ => Introduces source before ∧
      seq = UInt64.ofNat (rowsSent source before) ∧ index_state = entriesHash source before
  | .segment source .. | .clockOffset source .. | .sourceUpdate source .. =>
      Introduces source before

/-! ### A frame more -/

section

variable {source : UInt32} {fs : List Frame} {f : Frame}

theorem framesOf_append_self (h : f.source = source) :
    framesOf source (fs ++ [f]) = framesOf source fs ++ [f] := by
  unfold framesOf
  rw [List.filter_append]
  simp [h]

theorem framesOf_append_other (h : f.source ≠ source) :
    framesOf source (fs ++ [f]) = framesOf source fs := by
  unfold framesOf
  rw [List.filter_append]
  simp [h]

theorem introductions_append :
    introductions (fs ++ [f]) = introductions fs + f.isHandshake.toNat := by
  unfold introductions
  rw [List.countP_append, List.countP_singleton]
  cases f.isHandshake <;> rfl

theorem Introduces.append (h : Introduces source fs) (fs' : List Frame) :
    Introduces source (fs ++ fs') := by
  obtain ⟨f, hf, hh⟩ := h
  exact ⟨f, List.mem_append_left _ hf, hh⟩

/-- A source that no frame names has said nothing. -/
theorem framesOf_eq_nil (h : ∀ f ∈ fs, f.source ≠ source) : framesOf source fs = [] := by
  unfold framesOf
  rw [List.filter_eq_nil_iff]
  intro f hf
  have := h f hf
  simpa using this

end

/-! ## Voices are determined -/

/-- A voice is what its source's frames made it. -/
structure Voiced (source : UInt32) (fs : List Frame) (v : Voice) : Prop where
  seq : v.seq = UInt64.ofNat (rowsSent source fs)
  index_state : v.index_state = entriesHash source fs
  sent_full : v.sent_full = entrySent source fs

/-- A frame of another source. -/
theorem Voiced.other {source : UInt32} {fs : List Frame} {v : Voice} {f : Frame}
    (h : Voiced source fs v) (hne : f.source ≠ source) : Voiced source (fs ++ [f]) v := by
  have hsame := @framesOf_append_other source fs f hne
  obtain ⟨hseq, hstate, hfull⟩ := h
  unfold rowsSent at hseq
  unfold entriesHash at hstate
  unfold entrySent at hfull
  rw [← hsame] at hseq hstate hfull
  exact ⟨hseq, hstate, hfull⟩

/-- The voices of a connection are what its frames made them. -/
structure Recounted (fs : List Frame) (vs : List Voice) : Prop where
  introduced : vs.length = introductions fs
  named : ∀ f ∈ fs, f.source.toNat < vs.length
  met : ∀ source : UInt32, source.toNat < vs.length → Introduces source fs
  voiced : ∀ (source : UInt32) (v : Voice), vs[source.toNat]? = some v → Voiced source fs v

theorem recounted_nil : Recounted [] [] where
  introduced := rfl
  named _ h := absurd h List.not_mem_nil
  met _ h := absurd h (Nat.not_lt_zero _)
  voiced _ _ h := absurd h (by simp)

section

variable {fs : List Frame} {vs vs' : List Voice} {f : Frame}

/-- A handshake in turn: its source has said nothing before. -/
theorem Recounted.handshake {o : UInt32} {u : Option String} {l m : StringMap} {a : Int64} {c : Bool}
    (h : Recounted fs vs) (ho : o.toNat = vs.length) :
    Recounted (fs ++ [.handshake o u l m a c]) (vs ++ [.start l m]) := by
  refine ⟨?_, fun f hf => ?_, fun source hlt => ?_, fun source v hv => ?_⟩
  · rw [introductions_append, List.length_append, h.introduced]
    rfl
  · rw [List.length_append, List.length_singleton]
    rcases List.mem_append.mp hf with hf | hf
    · have := h.named f hf
      omega
    · obtain rfl := List.mem_singleton.mp hf
      have : (Frame.handshake o u l m a c).source.toNat = vs.length := ho
      omega
  · rw [List.length_append, List.length_singleton] at hlt
    by_cases hold : source.toNat < vs.length
    · exact (h.met source hold).append _
    · have hsource : o = source := UInt32.toNat_inj.mp (by omega)
      exact ⟨_, List.mem_append_right _ (List.mem_singleton_self _), rfl, hsource⟩
  · by_cases hold : source.toNat < vs.length
    · rw [List.getElem?_append_left hold] at hv
      have hne : (Frame.handshake o u l m a c).source ≠ source := by
        rintro rfl
        have : (Frame.handshake o u l m a c).source.toNat = vs.length := ho
        omega
      exact (h.voiced source v hv).other hne
    · have hbound := (List.getElem?_eq_some_iff.mp hv).1
      rw [List.length_append, List.length_singleton] at hbound
      obtain rfl : o = source := UInt32.toNat_inj.mp (by omega)
      rw [ho, List.getElem?_append_right (Nat.le_refl _), Nat.sub_self] at hv
      obtain rfl := Option.some.inj hv
      have hsilent : framesOf o fs = [] := by
        refine framesOf_eq_nil fun f hf heq => ?_
        have := h.named f hf
        rw [heq] at this
        omega
      have hself : framesOf o (fs ++ [.handshake o u l m a c]) = [.handshake o u l m a c] := by
        have happend := @framesOf_append_self o fs (.handshake o u l m a c) rfl
        rw [happend, hsilent]
        rfl
      refine ⟨?_, ?_, ?_⟩
      · unfold rowsSent
        rw [hself]
        rfl
      · unfold entriesHash
        rw [hself]
        rfl
      · unfold entrySent
        rw [hself]
        rfl

/-- What a source says moves its voice as its frames tell. -/
theorem Voiced.say {source : UInt32} {v v' : Voice} (h : Voiced source fs v)
    (hf : f.source = source) (hsay : v.say f = some v') : Voiced source (fs ++ [f]) v' := by
  have hframes := @framesOf_append_self source fs f hf
  have hrows : rowsSent source (fs ++ [f]) = rowsSent source fs + f.isRows.toNat := by
    unfold rowsSent
    rw [hframes, List.countP_append, List.countP_singleton]
    cases f.isRows <;> rfl
  have hhash : entriesHash source (fs ++ [f]) = chained (entriesHash source fs) f := by
    unfold entriesHash
    rw [hframes, List.foldl_append]
    rfl
  have hentry : entrySent source (fs ++ [f]) = (entrySent source fs || f.isIndex) := by
    unfold entrySent
    rw [hframes, List.any_append, List.any_cons, List.any_nil, Bool.or_false]
  obtain ⟨hseq, hstate, hfull⟩ := h
  cases f with
  | handshake => exact absurd hsay (by simp [Voice.say])
  | index o stream ts kind state blob =>
      obtain ⟨⟨-, hnew⟩, hsay⟩ := Option.ite_none_right_eq_some.mp hsay
      obtain rfl := Option.some.inj hsay
      refine ⟨?_, ?_, ?_⟩
      · rw [hrows]
        exact hseq
      · rw [hhash, ← hstate]
        exact hnew
      · rw [hentry]
        exact (Bool.or_true _).symm
  | rows o seq state rows =>
      obtain ⟨-, hsay⟩ := Option.ite_none_right_eq_some.mp hsay
      obtain rfl := Option.some.inj hsay
      refine ⟨?_, ?_, ?_⟩
      · have hnext : v.seq + 1 = UInt64.ofNat (rowsSent source fs + 1) := by
          rw [hseq, UInt64.ofNat_add]
          rfl
        rw [hrows]
        exact hnext
      · rw [hhash]
        exact hstate
      · rw [hentry]
        exact hfull.trans (Bool.or_false _).symm
  | segment =>
      obtain rfl := Option.some.inj hsay
      exact ⟨by rw [hrows]; exact hseq, by rw [hhash]; exact hstate,
        by rw [hentry]; exact hfull.trans (Bool.or_false _).symm⟩
  | clockOffset =>
      obtain rfl := Option.some.inj hsay
      exact ⟨by rw [hrows]; exact hseq, by rw [hhash]; exact hstate,
        by rw [hentry]; exact hfull.trans (Bool.or_false _).symm⟩
  | sourceUpdate =>
      obtain rfl := Option.some.inj hsay
      exact ⟨by rw [hrows]; exact hseq, by rw [hhash]; exact hstate,
        by rw [hentry]; exact hfull.trans (Bool.or_false _).symm⟩

/-- **One frame in turn.** -/
theorem Recounted.step (h : Recounted fs vs) (hone : converseOne vs f = some vs') :
    InTurn fs f ∧ Recounted (fs ++ [f]) vs' := by
  by_cases hhand : ∃ o u l m a c, f = .handshake o u l m a c
  · obtain ⟨o, u, l, m, a, c, rfl⟩ := hhand
    obtain ⟨ho, rfl⟩ := converseOne_handshake hone
    exact ⟨ho.trans h.introduced, h.handshake ho⟩
  have hhand : ∀ o u l m a c, f ≠ .handshake o u l m a c :=
    fun o u l m a c heq => hhand ⟨o, u, l, m, a, c, heq⟩
  obtain ⟨v, v', hv, hsay, rfl⟩ := converseOne_say hhand hone
  have hlt : f.source.toNat < vs.length := (List.getElem?_eq_some_iff.mp hv).1
  have hvoiced := h.voiced f.source v hv
  refine ⟨?_, ?_, fun f' hf' => ?_, fun source hsource => ?_, fun source w hw => ?_⟩
  · have hmet := h.met f.source hlt
    cases f with
    | handshake => exact absurd rfl (hhand _ _ _ _ _ _)
    | index o stream ts kind state blob =>
        obtain ⟨⟨hkind, hstate⟩, -⟩ := Option.ite_none_right_eq_some.mp hsay
        rw [hvoiced.sent_full] at hkind
        rw [hvoiced.index_state] at hstate
        exact ⟨hmet, hkind, hstate⟩
    | rows o seq state rows =>
        obtain ⟨⟨hseq, hstate⟩, -⟩ := Option.ite_none_right_eq_some.mp hsay
        exact ⟨hmet, hseq.trans hvoiced.seq, hstate.trans hvoiced.index_state⟩
    | _ => exact hmet
  · rw [List.length_set, h.introduced, introductions_append]
    cases f with
    | handshake => exact absurd rfl (hhand _ _ _ _ _ _)
    | _ => rfl
  · rw [List.length_set]
    rcases List.mem_append.mp hf' with hf' | hf'
    · exact h.named f' hf'
    · rw [List.mem_singleton.mp hf']
      exact hlt
  · rw [List.length_set] at hsource
    exact (h.met source hsource).append _
  · by_cases hat : f.source = source
    · subst hat
      rw [List.getElem?_set_self hlt] at hw
      obtain rfl := Option.some.inj hw
      exact hvoiced.say rfl hsay
    · have hne : f.source.toNat ≠ source.toNat := fun heq => hat (UInt32.toNat_inj.mp heq)
      rw [List.getElem?_set_ne hne] at hw
      exact (h.voiced source w hw).other hat

end

/-- **Whatever is heard is in turn.** -/
theorem converse_inTurn {fs : List Frame} {vs : List Voice} (h : converse [] fs = some vs) :
    Recounted fs vs ∧ ∀ before f after, fs = before ++ f :: after → InTurn before f := by
  induction fs using List.reverseRecOn generalizing vs with
  | nil =>
      obtain rfl := Option.some.inj h
      exact ⟨recounted_nil, fun before f after heq => absurd heq (by simp)⟩
  | append_singleton fs f ih =>
      unfold converse at h
      rw [List.foldlM_append] at h
      obtain ⟨vs₁, hfirst, hlast⟩ := Option.bind_eq_some_iff.mp h
      obtain ⟨hrecounted, hturns⟩ := ih hfirst
      have hone : converseOne vs₁ f = some vs := by simpa using hlast
      obtain ⟨hturn, hnext⟩ := hrecounted.step hone
      refine ⟨hnext, fun before f' after heq => ?_⟩
      -- the frame is the last one, or one of those before it
      rcases List.eq_nil_or_concat after with rfl | ⟨after, g, rfl⟩
      · obtain ⟨rfl, hf⟩ := List.append_inj' heq rfl
        obtain rfl := (List.cons.inj hf).1
        exact hturn
      · rw [List.concat_eq_append, ← List.cons_append, ← List.append_assoc] at heq
        obtain ⟨rfl, -⟩ := List.append_inj' heq rfl
        exact hturns before f' after rfl

/-! ## What an apply leaves of a source, whatever fails -/

/-- What a frame does to the subscriber's memory of sources, and what it answers of rows, whatever
its calls meet. -/
inductive Noted (sub : Subscriber) : Frame → Outcome Error Applied → Subscriber → Prop where
  /-- A handshake or an entry that was refused, or a frame of an unknown source. -/
  | refused {f : Frame} {r : Outcome Error Applied} {sub' : Subscriber} :
      r.isOk = false → (f.isHandshake || f.isIndex) = true ∨ sub.sources.get? f.source = none →
      sub'.sources = sub.sources → Noted sub f r sub'
  | handshake {source : UInt32} {uuid : Option String} {labels metadata : StringMap}
      {anchor : Int64} {complete : Bool} {writer : Int} {r : Outcome Error Applied}
      {sub' : Subscriber} :
      sub'.sources = sub.sources.insert source (.start writer complete) →
      Noted sub (.handshake source uuid labels metadata anchor complete) r sub'
  | index {source : UInt32} {stream : String} {ts : Int64} {kind : IndexKind} {state : IndexState}
      {blob : Bytes} {st : SourceState} {r : Outcome Error Applied} {sub' : Subscriber} :
      sub.sources.get? source = some st →
      sub'.sources = sub.sources.insert source
        { st with index_state := state, seen_full := st.seen_full || kind = .full } →
      Noted sub (.index source stream ts kind state blob) r sub'
  | rows {source : UInt32} {seq : UInt64} {state : IndexState} {rows : List WalRow}
      {st : SourceState} {r : Outcome Error Applied} {sub' : Subscriber} :
      sub.sources.get? source = some st →
      sub'.sources = sub.sources.insert source { st with last_seq := some seq } →
      (∀ a, r = .ok a → a = if Subscriber.skips st state then
          { Applied.none with
            rows_skipped := rows.length, gap := Subscriber.isGap st.last_seq seq }
        else { Applied.none with rows := rows.length, gap := Subscriber.isGap st.last_seq seq }) →
      Noted sub (.rows source seq state rows) r sub'
  /-- Any other frame leaves what agreement rests on. -/
  | other {f : Frame} {st : SourceState} {last_offset : Option (Int64 × Int64)}
      {r : Outcome Error Applied} {sub' : Subscriber} :
      (f.isHandshake || f.isIndex || f.isRows) = false → sub.sources.get? f.source = some st →
      sub'.sources.get? f.source = some { st with last_offset } →
      (∀ o, o ≠ f.source → sub'.sources.get? o = sub.sources.get? o) → Noted sub f r sub'

section

variable {sub sub' : Subscriber} {env : Env}

theorem keeps_post_sources {msg : Msg} :
    Prog.Keeps (post env msg) sub fun sub' => sub'.sources = sub.sources :=
  Subscriber.keeps_post fun _ hsources _ => hsources

theorem keeps_request_sources {msg : Msg} :
    Prog.Keeps (request env msg) sub fun sub' => sub'.sources = sub.sources :=
  Subscriber.keeps_request fun _ hsources _ => hsources

/-- A frame that starts by looking its source up. -/
theorem ends_sourceMut {f : Frame} {k : SourceState → SubscribeM Applied}
    (hk : ∀ st, sub.sources.get? f.source = some st → Prog.Ends (k st) sub (Noted sub f)) :
    Prog.Ends (sourceMut f.source >>= k) sub (Noted sub f) := by
  intro faults
  rcases hget : sub.sources.get? f.source with _ | st
  · rw [Prog.run_bind, run_sourceMut_none hget]
    exact .refused rfl (.inr hget) rfl
  · rw [Prog.run_bind_ok (run_sourceMut_some hget faults)]
    exact hk st hget faults

/-- A frame whose only effect on the memory of sources is on its own, and which keeps that as it
is. -/
theorem Noted.same {f : Frame} {st : SourceState} {r : Outcome Error Applied}
    (hkind : (f.isHandshake || f.isIndex || f.isRows) = false)
    (hst : sub.sources.get? f.source = some st) (hsources : sub'.sources = sub.sources) :
    Noted sub f r sub' :=
  @Noted.other sub f st st.last_offset r sub' hkind hst (by rw [hsources, hst]) fun o _ => by
    rw [hsources]

/-- No frame touches the memory of another source. -/
theorem Noted.apart {f : Frame} {r : Outcome Error Applied} (h : Noted sub f r sub') {o : UInt32}
    (ho : o ≠ f.source) : sub'.sources.get? o = sub.sources.get? o := by
  cases h with
  | refused _ _ hsources => rw [hsources]
  | handshake hsources =>
      rw [hsources]
      exact OrdMap.get?_insert_ne _ _ ho
  | index _ hsources =>
      rw [hsources]
      exact OrdMap.get?_insert_ne _ _ ho
  | rows _ hsources =>
      rw [hsources]
      exact OrdMap.get?_insert_ne _ _ ho
  | other _ _ _ hothers => exact hothers o ho

/-- **What an `apply` leaves of the sources, whatever fails.** -/
theorem ends_apply_noted (f : Frame) :
    Prog.Ends (Subscriber.apply env f) sub (Noted sub f) := by
  cases f with
  | handshake source uuid labels metadata anchor complete =>
      unfold Subscriber.apply addSourceWithUuid
      refine Prog.Ends.bind (P := fun _ sub' => sub'.sources = sub.sources) ?_ ?_ ?_ ?_
      · refine Prog.Keeps.bind keeps_request_sources fun reply sub' h => ?_
        split
        · exact .lift (fun _ _ => h) fun _ _ => h
        · exact .fail h
      · intro writer sub' h faults
        refine @Noted.handshake sub source uuid labels metadata anchor complete writer _ _ ?_
        rw [← h]
        rfl
      · exact fun e sub' h => .refused rfl (.inl rfl) h
      · exact fun sub' h => .refused rfl (.inl rfl) h
  | index source stream ts kind state blob =>
      unfold Subscriber.apply
      refine ends_sourceMut (f := .index source stream ts kind state blob) fun st hst => ?_
      refine Prog.Ends.bind (P := fun _ sub' => sub'.sources = sub.sources) keeps_post_sources ?_ ?_ ?_
      · intro _ sub' h faults
        refine .index hst ?_
        rw [← h]
        rfl
      · exact fun e sub' h => .refused rfl (.inl rfl) h
      · exact fun sub' h => .refused rfl (.inl rfl) h
  | rows source seq state rows =>
      unfold Subscriber.apply
      refine ends_sourceMut (f := .rows source seq state rows) fun st hst => ?_
      refine Prog.Ends.bind (P := fun r sub' => r = .ok () ∧ sub' = { sub with
          sources := sub.sources.insert source { st with last_seq := some seq } })
        (fun _ => ⟨rfl, rfl⟩) ?_ (fun _ _ h => absurd h.1 (by simp)) fun _ h => absurd h.1 (by simp)
      rintro _ _ ⟨-, rfl⟩
      dsimp only
      split
      · rename_i hskips
        refine .pure (.rows hst rfl fun a ha => ?_)
        rw [if_pos hskips]
        exact (Outcome.ok.inj ha).symm
      · rename_i hskips
        have hwritten : ∀ sub' : Subscriber, sub'.sources =
            sub.sources.insert source { st with last_seq := some seq } →
            ∀ r : Outcome Error Applied, (∀ a, r = .ok a → a =
              { Applied.none with
                rows := rows.length, gap := Subscriber.isGap st.last_seq seq }) →
            Noted sub (.rows source seq state rows) r sub' := by
          intro sub' hsources r hr
          refine .rows hst hsources fun a ha => ?_
          rw [if_neg hskips]
          exact hr a ha
        split
        · refine Prog.Ends.bind keeps_post_sources ?_ ?_ ?_
          · exact fun _ sub' h _ => hwritten sub' h _ fun a ha => (Outcome.ok.inj ha).symm
          · exact fun e sub' h => hwritten sub' h _ nofun
          · exact fun sub' h => hwritten sub' h _ nofun
        · exact .pure (hwritten _ rfl _ fun a ha => (Outcome.ok.inj ha).symm)
  | segment source stream seg_meta bytes caller_index =>
      unfold Subscriber.apply
      refine ends_sourceMut (f := .segment source stream seg_meta bytes caller_index)
        fun st hst => ?_
      have hkeeps : Prog.Keeps (SubscribeM.adoptSegment env st.writer
          { stream, seg_meta, bytes, caller_index }) sub fun sub' => sub'.sources = sub.sources := by
        unfold SubscribeM.adoptSegment
        refine Prog.Keeps.bind keeps_request_sources fun reply sub' h => ?_
        split
        · exact .lift (fun _ _ => h) fun _ _ => h
        · exact .fail h
      refine Prog.Ends.bind hkeeps ?_ ?_ ?_
      · exact fun _ sub' h _ => .same rfl hst h
      · exact fun e sub' h => .same rfl hst h
      · exact fun sub' h => .same rfl hst h
  | clockOffset source ts offset_ns =>
      unfold Subscriber.apply
      refine ends_sourceMut (f := .clockOffset source ts offset_ns) fun st hst => ?_
      refine Prog.Ends.bind (P := fun _ sub' => sub'.sources = sub.sources) keeps_post_sources ?_ ?_ ?_
      · intro _ sub' h faults
        have hsources : sub'.sources.insert source { st with last_offset := some (ts, offset_ns) } =
            sub.sources.insert source { st with last_offset := some (ts, offset_ns) } := by rw [h]
        refine @Noted.other sub _ st (some (ts, offset_ns)) _ _ rfl hst ?_ fun o ho => ?_
        · exact (congrArg (·.get? source) hsources).trans (OrdMap.get?_insert_self _ _ _)
        · exact (congrArg (·.get? o) hsources).trans (OrdMap.get?_insert_ne _ _ ho)
      · exact fun e sub' h => .same rfl hst h
      · exact fun sub' h => .same rfl hst h
  | sourceUpdate source ts labels metadata =>
      unfold Subscriber.apply
      refine ends_sourceMut (f := .sourceUpdate source ts labels metadata) fun st hst => ?_
      refine Prog.Ends.bind (P := fun _ sub' => sub'.sources = sub.sources) keeps_post_sources ?_ ?_ ?_
      · exact fun _ sub' h _ => .same rfl hst h
      · exact fun e sub' h => .same rfl hst h
      · exact fun sub' h => .same rfl hst h

theorem deliver_noted (sub : Subscriber) (d : Delivery) :
    Noted sub d.frame (sub.answer d) (sub.deliver d) := ends_apply_noted d.frame d.faults

end

/-! ## The subscriber follows the publisher -/

/-- What the subscriber remembers of a source is what its frames have said. -/
structure Tracks (v : Voice) (st : SourceState) : Prop where
  index_state : st.index_state = v.index_state
  seen_full : st.seen_full = v.sent_full
  last_seq : st.last_seq = none ∨ ∃ n, st.last_seq = some n ∧ v.seq = n + 1
  /-- A state is declared after a `full` entry only. -/
  declared : v.index_state = NO_INDEX_STATE ∨ v.sent_full = true

theorem tracks_start {l m : StringMap} {writer : Int} {complete : Bool} :
    Tracks (.start l m) (.start writer complete) where
  index_state := rfl
  seen_full := rfl
  last_seq := .inl rfl
  declared := .inl rfl

/-- Nothing to skip. -/
theorem Tracks.skips {v : Voice} {st : SourceState} (h : Tracks v st) :
    Subscriber.skips st v.index_state = false := by
  unfold Subscriber.skips
  rw [h.index_state, h.seen_full]
  rcases h.declared with hnone | hfull
  · simp [hnone]
  · simp [hfull]

/-- No gap, at the wrap of the counter either. -/
theorem Tracks.isGap {v : Voice} {st : SourceState} (h : Tracks v st) :
    Subscriber.isGap st.last_seq v.seq = false := by
  rcases h.last_seq with hnone | ⟨n, hlast, hseq⟩
  · rw [hnone]
    rfl
  · rw [hlast, hseq]
    unfold Subscriber.isGap Subscriber.saturatingSucc
    dsimp only
    split
    · rename_i hmax
      rw [hmax]
      decide
    · exact decide_eq_false (UInt64.lt_irrefl _)

/-- Of each source of the connection, but for the lost ones, the subscriber remembers what its
frames have said. -/
def Following (lost : UInt32 → Prop) (vs : List Voice) (sub : Subscriber) : Prop :=
  ∀ (o : UInt32) (v : Voice), vs[o.toNat]? = some v →
    lost o ∨ ∃ st, sub.sources.get? o = some st ∧ Tracks v st

/-- Whether a frame that the memory of its source rests on was refused. -/
def LosesTrack (f : Frame) (r : Outcome Error Applied) (o : UInt32) : Prop :=
  f.source = o ∧ (f.isHandshake || f.isIndex) = true ∧ r.isOk = false

section

variable {lost : UInt32 → Prop} {vs vs' : List Voice} {sub sub' : Subscriber} {f : Frame}
  {r : Outcome Error Applied}

/-- A frame that changes the memory of its own source as it changes its voice. -/
theorem Following.set {v' : Voice} (h : Following lost vs sub)
    (hlt : f.source.toNat < vs.length)
    (hown : lost f.source ∨ LosesTrack f r f.source ∨
      ∃ st, sub'.sources.get? f.source = some st ∧ Tracks v' st)
    (hnoted : Noted sub f r sub') :
    Following (fun o => lost o ∨ LosesTrack f r o) (vs.set f.source.toNat v') sub' := by
  intro o w hw
  by_cases ho : o = f.source
  · subst ho
    rw [List.getElem?_set_self hlt] at hw
    obtain rfl := Option.some.inj hw
    rw [or_assoc]
    exact hown
  · have hne : f.source.toNat ≠ o.toNat := fun heq => ho (UInt32.toNat_inj.mp heq.symm)
    rw [List.getElem?_set_ne hne] at hw
    rw [hnoted.apart ho]
    exact (h o w hw).imp_left .inl

/-- **One frame in turn**, whatever its `apply` meets. -/
theorem Following.step (h : Following lost vs sub) (hone : converseOne vs f = some vs')
    (hnoted : Noted sub f r sub') : Following (fun o => lost o ∨ LosesTrack f r o) vs' sub' := by
  by_cases hhand : ∃ o u l m a c, f = .handshake o u l m a c
  · obtain ⟨o, u, l, m, a, c, rfl⟩ := hhand
    obtain ⟨ho, rfl⟩ := converseOne_handshake hone
    intro source v hv
    have hsource : o ≠ source → vs[source.toNat]? = some v := by
      intro hne
      have hbound := (List.getElem?_eq_some_iff.mp hv).1
      rw [List.length_append, List.length_singleton] at hbound
      have hapart : o.toNat ≠ source.toNat := fun heq => hne (UInt32.toNat_inj.mp heq)
      rwa [List.getElem?_append_left (by omega)] at hv
    by_cases hat : o = source
    · subst hat
      rw [ho, List.getElem?_append_right (Nat.le_refl _), Nat.sub_self] at hv
      obtain rfl := Option.some.inj hv
      cases hnoted with
      | refused hr _ _ => exact .inl (.inr ⟨rfl, rfl, hr⟩)
      | @handshake _ _ _ _ _ _ writer _ _ hsources =>
          refine .inr ⟨.start writer c, ?_, tracks_start⟩
          rw [hsources]
          exact OrdMap.get?_insert_self _ _ _
      | other hkind => exact absurd hkind (by simp [Frame.isHandshake])
    · rw [hnoted.apart (Ne.symm hat)]
      exact (h source v (hsource hat)).imp_left .inl
  have hhand : ∀ o u l m a c, f ≠ .handshake o u l m a c :=
    fun o u l m a c heq => hhand ⟨o, u, l, m, a, c, heq⟩
  obtain ⟨v, v', hv, hsay, rfl⟩ := converseOne_say hhand hone
  have hlt : f.source.toNat < vs.length := (List.getElem?_eq_some_iff.mp hv).1
  have hknown := h f.source v hv
  refine h.set hlt ?_ hnoted
  cases hnoted with
  | refused hr hwhy _ =>
      rcases hwhy with hkind | hnone
      · exact .inr (.inl ⟨rfl, hkind, hr⟩)
      · -- a source that was introduced is unknown only if it was lost
        rcases hknown with hlost | ⟨st, hst, -⟩
        · exact .inl hlost
        · rw [hnone] at hst
          exact absurd hst (by simp)
  | handshake => exact absurd rfl (hhand _ _ _ _ _ _)
  | @index source stream ts kind state blob st _ _ hst hsources =>
      rcases hknown with hlost | ⟨st', hst', htracks⟩
      · exact .inl hlost
      have hst' : sub.sources.get? source = some st' := hst'
      rw [hst] at hst'
      obtain rfl := Option.some.inj hst'
      obtain ⟨⟨hkind, -⟩, hsay⟩ := Option.ite_none_right_eq_some.mp hsay
      obtain rfl := Option.some.inj hsay
      refine .inr (.inr ⟨_, by rw [hsources]; exact OrdMap.get?_insert_self _ _ _, ?_⟩)
      refine ⟨rfl, ?_, htracks.last_seq, .inr rfl⟩
      -- the first entry is the full one
      have hfull : (st.seen_full || decide (kind = .full)) = true := by
        rw [hkind, htracks.seen_full]
        unfold entryKind
        cases v.sent_full <;> rfl
      exact hfull
  | @rows source seq state rows st _ _ hst hsources _ =>
      rcases hknown with hlost | ⟨st', hst', htracks⟩
      · exact .inl hlost
      have hst' : sub.sources.get? source = some st' := hst'
      rw [hst] at hst'
      obtain rfl := Option.some.inj hst'
      obtain ⟨⟨hseq, -⟩, hsay⟩ := Option.ite_none_right_eq_some.mp hsay
      obtain rfl := Option.some.inj hsay
      refine .inr (.inr ⟨_, by rw [hsources]; exact OrdMap.get?_insert_self _ _ _, ?_⟩)
      exact ⟨htracks.index_state, htracks.seen_full, .inr ⟨seq, rfl, by rw [hseq]⟩, htracks.declared⟩
  | @other f st last_offset _ _ hkind hst hst' _ =>
      rcases hknown with hlost | ⟨st₀, hst₀, htracks⟩
      · exact .inl hlost
      rw [hst] at hst₀
      obtain rfl := Option.some.inj hst₀
      refine .inr (.inr ⟨_, hst', ?_⟩)
      have hsame : v'.index_state = v.index_state ∧ v'.sent_full = v.sent_full ∧ v'.seq = v.seq := by
        cases f with
        | handshake => exact absurd rfl (hhand _ _ _ _ _ _)
        | index => exact absurd hkind (by simp [Frame.isHandshake, Frame.isIndex])
        | rows => exact absurd hkind (by simp [Frame.isHandshake, Frame.isIndex, Frame.isRows])
        | _ =>
            obtain rfl := Option.some.inj hsay
            exact ⟨rfl, rfl, rfl⟩
      obtain ⟨hstate, hfull, hseq⟩ := hsame
      refine ⟨?_, ?_, ?_, ?_⟩
      · exact htracks.index_state.trans hstate.symm
      · exact htracks.seen_full.trans hfull.symm
      · rw [hseq]
        exact htracks.last_seq
      · rw [hstate, hfull]
        exact htracks.declared

end

/-- What was heard before a delivery, and the delivery in turn after it. -/
theorem converse_split {before after : List Delivery} {d : Delivery} {vs : List Voice}
    (h : converse [] ((before ++ d :: after).map (·.frame)) = some vs) : ∃ vs₁ vs₂,
      converse [] (before.map (·.frame)) = some vs₁ ∧ converseOne vs₁ d.frame = some vs₂ := by
  rw [List.map_append, List.map_cons] at h
  unfold converse at h
  rw [List.foldlM_append] at h
  obtain ⟨vs₁, hfirst, hrest⟩ := Option.bind_eq_some_iff.mp h
  obtain ⟨vs₂, hone, -⟩ := Option.bind_eq_some_iff.mp hrest
  exact ⟨vs₁, vs₂, hfirst, hone⟩

/-- Whether the handshake or an entry of a source was refused on the way. -/
def Missed (start : Subscriber) (ds : List Delivery) (o : UInt32) : Prop :=
  ∃ before d after, ds = before ++ d :: after ∧
    LosesTrack d.frame ((start.deliverAll before).answer d) o

section

variable {start : Subscriber} {ds : List Delivery} {o : UInt32}

theorem Missed.append (h : Missed start ds o) (ds' : List Delivery) : Missed start (ds ++ ds') o := by
  obtain ⟨before, d, after, rfl, hlost⟩ := h
  exact ⟨before, d, after ++ ds', by rw [List.append_assoc, List.cons_append], hlost⟩

/-- **A whole connection**, whatever its applies meet. -/
theorem following_run {vs : List Voice} (h : converse [] (ds.map (·.frame)) = some vs) :
    Following (Missed start ds) vs (start.deliverAll ds) := by
  induction ds using List.reverseRecOn generalizing vs with
  | nil =>
      obtain rfl := Option.some.inj h
      exact fun o v hv => absurd hv (by simp)
  | append_singleton ds d ih =>
      rw [List.map_append] at h
      unfold converse at h
      rw [List.foldlM_append] at h
      obtain ⟨vs₁, hfirst, hlast⟩ := Option.bind_eq_some_iff.mp h
      have hone : converseOne vs₁ d.frame = some vs := by simpa using hlast
      have hstep := (ih hfirst).step hone (deliver_noted (start.deliverAll ds) d)
      rw [Subscriber.deliverAll_append]
      intro o v hv
      refine (hstep o v hv).imp_left ?_
      rintro (hmissed | hlost)
      · exact hmissed.append [d]
      · exact ⟨ds, d, [], rfl, hlost⟩

/-- Where no call fails, only a segment can be refused of a source that was introduced. -/
theorem Heard.answered {sub sub' : Subscriber} {f : Frame} {r : Outcome Error Applied}
    (h : Heard sub f r sub') (hsegment : ∀ o stream seg_meta bytes index,
      f ≠ .segment o stream seg_meta bytes index)
    (hknown : f.isHandshake = false → ∃ st, sub.sources.get? f.source = some st) :
    r.isOk = true := by
  cases h with
  | segment => exact absurd rfl (hsegment _ _ _ _ _)
  | @unknown f hhand hnone =>
      have hnot : f.isHandshake = false := by
        cases f with
        | handshake => exact absurd rfl (hhand _ _ _ _ _ _)
        | _ => rfl
      obtain ⟨st, hst⟩ := hknown hnot
      rw [hnone] at hst
      exact absurd hst (by simp)
  | _ => rfl

/-- A frame in turn, where no call has failed. -/
theorem answered (thread : WriterState) {before after : List Delivery} {d : Delivery}
    {vs : List Voice} (hfaults : ∀ e ∈ before ++ d :: after, e.faults = [])
    (h : converse [] ((before ++ d :: after).map (·.frame)) = some vs)
    (hsegment : ∀ o stream seg_meta bytes index,
      d.frame ≠ .segment o stream seg_meta bytes index) :
    (((Subscriber.new thread).deliverAll before).answer d).isOk = true := by
  obtain ⟨vs₁, vs₂, hfirst, hone⟩ := converse_split h
  have hmirrors := (mirrors_run (mirrors_new thread)
    (fun e he => hfaults e (List.mem_append_left _ he)) hfirst).1
  have hheard := apply_heard hmirrors.sound (hfaults d (List.mem_append_right _ List.mem_cons_self))
  refine hheard.answered hsegment fun hnot => ?_
  have hhand : ∀ o u l m a c, d.frame ≠ .handshake o u l m a c := by
    intro o u l m a c heq
    rw [heq] at hnot
    exact absurd hnot (by simp [Frame.isHandshake])
  obtain ⟨v, v', hv, -, -⟩ := converseOne_say hhand hone
  obtain ⟨st, -, hst, -, -⟩ := hmirrors.rows d.frame.source v hv
  exact ⟨st, hst⟩

/-- Where no call fails, no source is lost. -/
theorem not_missed (thread : WriterState) {vs : List Voice} (hfaults : ∀ d ∈ ds, d.faults = [])
    (h : converse [] (ds.map (·.frame)) = some vs) : ¬Missed (Subscriber.new thread) ds o := by
  rintro ⟨before, d, after, rfl, -, hkind, hr⟩
  have hok := answered thread hfaults h fun o stream seg_meta bytes index heq => by
    rw [heq] at hkind
    exact absurd hkind (by simp [Frame.isHandshake, Frame.isIndex])
  rw [hr] at hok
  exact absurd hok (by simp)

end

/-! ## Agreement -/

/-- **The two ends agree on a `rows` frame**: the subscriber's index state is the one declared, it
has the `full` entry if it needs one, and no number was skipped. -/
structure Agrees (sub : Subscriber) (d : Delivery) (source : UInt32) (seq : UInt64)
    (state : IndexState) (rows : List WalRow) : Prop where
  same : ∃ st, sub.sources.get? source = some st ∧ st.index_state = state ∧
    (state = NO_INDEX_STATE ∨ st.seen_full = true) ∧ Subscriber.isGap st.last_seq seq = false
  /-- An answer counts every row as written. -/
  written : ∀ a, sub.answer d = .ok a → a = { Applied.none with rows := rows.length }

/-- **Protocol agreement.** Over any history of the publisher's archive and any calls none of which
failed, with every frame delivered in order, whatever fails at the subscriber: each batch falls
into one chunk for each source, a poll's ending in the one `rows` frame of its source; as many
handshakes as there are sources; every frame is in turn; and on every `rows` frame the two ends
agree, unless the handshake or an entry of the source was refused before, which never happens where
no call of the subscriber fails. -/
theorem published_agrees {since : Option Int64} {batches : List (List Frame)} {db : Archive}
    {p : ArchivePublisher} (hp : Published since batches db p) (thread : WriterState)
    {ds : List Delivery} (hframes : ds.map (·.frame) = batches.flatten) :
    Batched batches p.sources.length ∧
    introductions batches.flatten = p.sources.length ∧ (sourceIds p.sources).Nodup ∧
    ∀ before d after, ds = before ++ d :: after → InTurn (before.map (·.frame)) d.frame ∧
      ∀ source seq state rows, d.frame = .rows source seq state rows →
        (Missed (.new thread) before source ∨
          Agrees ((Subscriber.new thread).deliverAll before) d source seq state rows) ∧
        ((∀ e ∈ ds, e.faults = []) → ¬Missed (.new thread) before source ∧
          ((Subscriber.new thread).deliverAll before).answer d =
            .ok { Applied.none with rows := rows.length }) := by
  have hconn := published_connected hp
  have hheard : converse [] (ds.map (·.frame)) = some (voices p.sources) := by
    rw [hframes]
    exact hconn.heard
  obtain ⟨hrecounted, hturns⟩ := converse_inTurn hheard
  refine ⟨hconn.batched, ?_, hconn.nodup, ?_⟩
  · rw [← hframes, ← hrecounted.introduced]
    exact List.length_map _
  rintro before d after rfl
  refine ⟨hturns _ _ (after.map (·.frame)) (by rw [List.map_append, List.map_cons]), ?_⟩
  intro source seq state rows hd
  obtain ⟨vs₁, vs₂, hfirst, hone⟩ := converse_split hheard
  have hagree : Missed (.new thread) before source ∨
      Agrees ((Subscriber.new thread).deliverAll before) d source seq state rows := by
    rw [hd] at hone
    obtain ⟨v, v', hv, hsay, -⟩ := converseOne_say (by simp) hone
    obtain ⟨⟨rfl, rfl⟩, -⟩ := Option.ite_none_right_eq_some.mp hsay
    refine (following_run hfirst source v hv).imp_right ?_
    rintro ⟨st, hst, htracks⟩
    refine ⟨⟨st, hst, htracks.index_state, ?_, htracks.isGap⟩, fun a ha => ?_⟩
    · rw [htracks.seen_full]
      exact htracks.declared
    · have hnoted := deliver_noted ((Subscriber.new thread).deliverAll before) d
      rw [hd] at hnoted
      cases hnoted with
      | refused hr =>
          rw [ha] at hr
          exact absurd hr (by simp [Outcome.isOk])
      | @rows _ _ _ _ st' _ _ hst' _ hanswer =>
          rw [hst] at hst'
          obtain rfl := Option.some.inj hst'
          have hwritten := hanswer a ha
          rw [htracks.skips, htracks.isGap, if_neg (by simp)] at hwritten
          exact hwritten
      | other hkind => exact absurd hkind (by simp [Frame.isRows])
  refine ⟨hagree, fun hfaults => ?_⟩
  have hnot : ¬Missed (.new thread) before source :=
    not_missed thread (fun e he => hfaults e (List.mem_append_left _ he)) hfirst
  have hok := answered thread hfaults hheard fun _ _ _ _ _ heq => by
    rw [hd] at heq
    exact absurd heq (by simp)
  refine ⟨hnot, ?_⟩
  rcases hanswer : ((Subscriber.new thread).deliverAll before).answer d with a | e | -
  · exact congrArg Outcome.ok ((hagree.resolve_left hnot).written a hanswer)
  · rw [hanswer] at hok
    exact absurd hok (by simp [Outcome.isOk])
  · rw [hanswer] at hok
    exact absurd hok (by simp [Outcome.isOk])

/-- An archive of one source, with an entry and a row. -/
def withEntry : Archive :=
  ((oneSource.insertCallerRows 1 "cpu" [⟨5, [1]⟩]).bind
    (Archive.insertWalRows 1 [⟨"cpu", 6, 0, [2]⟩])).toOption.getD oneSource

/-- A publisher that was opened while the source was empty. -/
def openedEmpty : ArchivePublisher :=
  (ArchivePublisher.open_ oneSource none (.unopened none) []).2.1

/-- What it returned, then and once there was an entry and a row. -/
def entryBatches : List (List Frame) :=
  [[.handshake 0 (some "u") ∅ ∅ 0 false],
    [.index 0 "cpu" 5 .full (foldIndexState NO_INDEX_STATE 5 [1]) [1],
      .rows 0 0 (foldIndexState NO_INDEX_STATE 5 [1]) [⟨"cpu", 6, 0, [2]⟩]]]

theorem published_entryBatches : Published none entryBatches withEntry
    (ArchivePublisher.next withEntry 1 openedEmpty []).2.1 := by
  have hopened : Published none [[.handshake 0 (some "u") ∅ ∅ 0 false]] oneSource openedEmpty :=
    @Published.opened none _ _ _ [] []
      (Prod.ext (by decide +kernel) (Prod.ext rfl (by decide +kernel)))
  exact @Published.polled none _ oneSource _ 1 _ _ _ [] [] hopened
    (Prod.ext (by decide +kernel) (Prod.ext rfl (by decide +kernel)))

/-- Those frames as they arrive, and nothing fails. -/
def entryDeliveries : List Delivery := entryBatches.flatten.map fun f => ⟨.idle, f, []⟩

theorem published_agrees_entryBatches :
    (((Subscriber.new (.mk (World.create .table).disk (.seed (.create .table)))).deliverAll
      (entryDeliveries.take 2)).answer
        ⟨.idle, .rows 0 0 (foldIndexState NO_INDEX_STATE 5 [1]) [⟨"cpu", 6, 0, [2]⟩], []⟩) =
      .ok { Applied.none with rows := 1 } := by
  have hframes : entryDeliveries.map (·.frame) = entryBatches.flatten := by
    unfold entryDeliveries
    rw [List.map_map]
    exact List.map_id' _
  have hagrees := (published_agrees published_entryBatches
    (.mk (World.create .table).disk (.seed (.create .table))) hframes).2.2.2
  have hsplit : entryDeliveries = entryDeliveries.take 2 ++
      ⟨.idle, .rows 0 0 (foldIndexState NO_INDEX_STATE 5 [1]) [⟨"cpu", 6, 0, [2]⟩], []⟩ :: [] := rfl
  have hfaults : ∀ e ∈ entryDeliveries, e.faults = [] := by
    intro e he
    obtain ⟨f, -, rfl⟩ := List.mem_map.mp he
    rfl
  exact (((hagrees _ _ [] hsplit).2 0 0 _ _ rfl).2 hfaults).2

end Dendro.Replicate
