import Dendro.Lib.Losses
import Dendro.Replicate.Agreement

/-!
# A connection that loses frames

Frames arrive in order, and any of them may be lost. A subscriber stores the index state that an
entry declares and never chains it itself, so what it can notice is exactly that the newest entry
is missing, or the `full` one: entries lost between these two go unnoticed (`lossy_rows_answered`).
A lost `rows` frame is noticed at the next one, if an earlier one arrived.
-/

namespace Dendro.Replicate

open Dendro SubscribeM

/-! ## What of a source is in flight -/

/-- The frames of a connection, each with a mark of whether it arrives. -/
abbrev Flight := List (Delivery × Bool)

/-- The state that a frame declares, if it is an index entry of the source. -/
def Frame.declares (source : UInt32) : Frame → Option IndexState
  | .index o _ _ _ state _ => if o = source then some state else none
  | _ => none

/-- Whether a frame is a `rows` frame of the source. -/
def Frame.isRowsOf (source : UInt32) (f : Frame) : Bool := f.isRows && f.source = source

/-- The states that the entries of a source declare, each with its entry's mark. -/
def entriesInFlight (source : UInt32) (flight : Flight) : List (IndexState × Bool) :=
  flight.filterMap fun x => (x.1.frame.declares source).map fun state => (state, x.2)

/-- The marks of the `rows` frames of a source. -/
def rowsInFlight (source : UInt32) (flight : Flight) : List Bool :=
  (flight.filter fun x => x.1.frame.isRowsOf source).map (·.2)

/-- Whether the handshake of a source arrived. -/
def Met (source : UInt32) (flight : Flight) : Prop :=
  ∃ x ∈ flight, x.2 = true ∧ x.1.frame.isHandshake = true ∧ x.1.frame.source = source

/-- Whether the first of the entries and the newest arrived, if there are any. -/
def resolvable (entries : List (IndexState × Bool)) : Bool :=
  entries.head?.all (·.2) && entries.getLast?.all (·.2)

/-- Whether the last `rows` frame was lost and an earlier one was not. -/
def interrupted (rows : List Bool) : Bool := rows.contains true && rows.getLast? = some false

section

variable {source : UInt32} {flight : Flight} {d : Delivery} {b : Bool}

theorem entriesInFlight_concat : entriesInFlight source (flight ++ [(d, b)]) =
    entriesInFlight source flight ++
      ((d.frame.declares source).map fun state => (state, b)).toList := by
  unfold entriesInFlight
  rw [List.filterMap_append]
  cases h : (d.frame.declares source).map fun state => (state, b)
  · simp [h]
  · simp [h]

theorem rowsInFlight_concat : rowsInFlight source (flight ++ [(d, b)]) =
    rowsInFlight source flight ++ if d.frame.isRowsOf source then [b] else [] := by
  unfold rowsInFlight
  rw [List.filter_append, List.map_append]
  cases h : d.frame.isRowsOf source
  · simp [h]
  · simp [h]

/-- An entry of the source. -/
theorem inFlight_index {stream : String} {ts : Int64} {kind : IndexKind} {state : IndexState}
    {blob : Bytes} (hd : d.frame = .index source stream ts kind state blob) :
    entriesInFlight source (flight ++ [(d, b)]) = entriesInFlight source flight ++ [(state, b)] ∧
      rowsInFlight source (flight ++ [(d, b)]) = rowsInFlight source flight := by
  have hdeclares : (Frame.index source stream ts kind state blob).declares source = some state :=
    if_pos rfl
  rw [entriesInFlight_concat, rowsInFlight_concat, hd, hdeclares]
  exact ⟨rfl, List.append_nil _⟩

/-- Rows of the source. -/
theorem inFlight_rows {seq : UInt64} {state : IndexState} {rows : List WalRow}
    (hd : d.frame = .rows source seq state rows) :
    entriesInFlight source (flight ++ [(d, b)]) = entriesInFlight source flight ∧
      rowsInFlight source (flight ++ [(d, b)]) = rowsInFlight source flight ++ [b] := by
  have hrows : (Frame.rows source seq state rows).isRowsOf source = true := by
    simp [Frame.isRowsOf, Frame.isRows, Frame.source]
  rw [entriesInFlight_concat, rowsInFlight_concat, hd, hrows]
  exact ⟨List.append_nil _, rfl⟩

/-- Neither. -/
theorem inFlight_quiet (hentry : d.frame.declares source = none)
    (hrows : d.frame.isRowsOf source = false) :
    entriesInFlight source (flight ++ [(d, b)]) = entriesInFlight source flight ∧
      rowsInFlight source (flight ++ [(d, b)]) = rowsInFlight source flight := by
  rw [entriesInFlight_concat, rowsInFlight_concat, hentry, hrows]
  exact ⟨List.append_nil _, List.append_nil _⟩

/-- A frame of another source. -/
theorem declares_other {f : Frame} (h : f.source ≠ source) : f.declares source = none := by
  cases f with
  | index => exact if_neg h
  | _ => rfl

theorem isRowsOf_other {f : Frame} (h : f.source ≠ source) : f.isRowsOf source = false := by
  unfold Frame.isRowsOf
  rw [decide_eq_false h, Bool.and_false]

theorem met_concat_of_not (h : ¬(b = true ∧ d.frame.isHandshake = true ∧ d.frame.source = source)) :
    Met source (flight ++ [(d, b)]) → Met source flight := by
  rintro ⟨x, hx, hmark⟩
  rcases List.mem_append.mp hx with hx | hx
  · exact ⟨x, hx, hmark⟩
  · rw [List.mem_singleton.mp hx] at hmark
    exact absurd hmark h

end

/-! ## Both ends of a flight -/

/-- What a voice has said, in terms of the flight. -/
structure SentOf (source : UInt32) (flight : Flight) (v : Voice) : Prop where
  index_state : v.index_state =
    (((entriesInFlight source flight).map (·.1)).getLast?).getD NO_INDEX_STATE
  sent_full : v.sent_full = !(entriesInFlight source flight).isEmpty
  seq : v.seq = UInt64.ofNat (rowsInFlight source flight).length
  declared : ∀ x ∈ entriesInFlight source flight, x.1 ≠ NO_INDEX_STATE

/-- What the subscriber remembers of a source, in terms of the flight. -/
structure HeardOf (source : UInt32) (flight : Flight) (st : SourceState) : Prop where
  index_state : st.index_state =
    ((passed (entriesInFlight source flight)).getLast?).getD NO_INDEX_STATE
  seen_full : st.seen_full = (entriesInFlight source flight).head?.any (·.2)
  last_seq : st.last_seq = (lastArrived (rowsInFlight source flight)).map UInt64.ofNat

section

variable {source : UInt32} {flight : Flight} {d : Delivery} {b : Bool} {v v' : Voice}
  {st st' : SourceState}

/-- A frame that is neither an entry nor rows of the source. -/
theorem SentOf.quiet (h : SentOf source flight v) (hentry : d.frame.declares source = none)
    (hrows : d.frame.isRowsOf source = false) (hstate : v'.index_state = v.index_state)
    (hfull : v'.sent_full = v.sent_full) (hseq : v'.seq = v.seq) :
    SentOf source (flight ++ [(d, b)]) v' := by
  obtain ⟨hentries, hmarks⟩ := @inFlight_quiet source flight d b hentry hrows
  refine ⟨?_, ?_, ?_, ?_⟩
  · rw [hentries, hstate, h.index_state]
  · rw [hentries, hfull, h.sent_full]
  · rw [hmarks, hseq, h.seq]
  · rw [hentries]
    exact h.declared

theorem HeardOf.quiet (h : HeardOf source flight st) (hentry : d.frame.declares source = none)
    (hrows : d.frame.isRowsOf source = false) (hstate : st'.index_state = st.index_state)
    (hfull : st'.seen_full = st.seen_full) (hseq : st'.last_seq = st.last_seq) :
    HeardOf source (flight ++ [(d, b)]) st' := by
  obtain ⟨hentries, hmarks⟩ := @inFlight_quiet source flight d b hentry hrows
  refine ⟨?_, ?_, ?_⟩
  · rw [hentries, hstate, h.index_state]
  · rw [hentries, hfull, h.seen_full]
  · rw [hmarks, hseq, h.last_seq]

/-- A frame in turn moves the voice of its source along. -/
theorem SentOf.say (h : SentOf source flight v) (hsource : d.frame.source = source)
    (hsay : v.say d.frame = some v') : SentOf source (flight ++ [(d, b)]) v' := by
  subst hsource
  cases hd : d.frame with
  | handshake =>
      rw [hd] at hsay
      exact absurd hsay (by simp [Voice.say])
  | index o stream ts kind state blob =>
      rw [hd] at hsay h
      obtain ⟨⟨-, hstate⟩, hsay⟩ := Option.ite_none_right_eq_some.mp hsay
      obtain rfl := Option.some.inj hsay
      obtain ⟨hentries, hmarks⟩ := @inFlight_index o flight d b _ _ _ _ _ hd
      change SentOf o _ _
      refine ⟨?_, ?_, ?_, fun x hx => ?_⟩
      · rw [hentries, List.map_append, List.map_singleton, List.getLast?_concat, Option.getD_some]
      · rw [hentries]
        simp
      · rw [hmarks]
        exact h.seq
      · rw [hentries] at hx
        rcases List.mem_append.mp hx with hx | hx
        · exact h.declared x hx
        · rw [List.mem_singleton.mp hx, hstate]
          exact foldIndexState_ne _ _ _
  | rows o seq state rows =>
      rw [hd] at hsay h
      obtain ⟨⟨hseq, -⟩, hsay⟩ := Option.ite_none_right_eq_some.mp hsay
      obtain rfl := Option.some.inj hsay
      obtain ⟨hentries, hmarks⟩ := @inFlight_rows o flight d b _ _ _ hd
      change SentOf o _ _
      refine ⟨?_, ?_, ?_, ?_⟩
      · rw [hentries]
        exact h.index_state
      · rw [hentries]
        exact h.sent_full
      · have hnext : v.seq + 1 = UInt64.ofNat ((rowsInFlight o flight).length + 1) := by
          rw [h.seq, UInt64.ofNat_add]
          rfl
        rw [hmarks, List.length_append, List.length_singleton]
        exact hnext
      · rw [hentries]
        exact h.declared
  | _ =>
      rw [hd] at hsay h
      obtain rfl := Option.some.inj hsay
      exact h.quiet (by rw [hd]; rfl) (by rw [hd]; rfl) rfl rfl rfl

/-- A frame that is lost. -/
theorem HeardOf.lost (h : HeardOf source flight st) : HeardOf source (flight ++ [(d, false)]) st := by
  have hentries := @entriesInFlight_concat source flight d false
  have hmarks := @rowsInFlight_concat source flight d false
  refine ⟨?_, ?_, ?_⟩
  · have hpassed : passed ((d.frame.declares source).map fun state => (state, false)).toList = [] := by
      cases d.frame.declares source <;> rfl
    rw [hentries, passed_append, hpassed, List.append_nil, h.index_state]
  · rw [hentries, h.seen_full]
    cases entriesInFlight source flight with
    | nil => cases d.frame.declares source <;> rfl
    | cons => rfl
  · have hlast : lastArrived (rowsInFlight source (flight ++ [(d, false)])) =
        lastArrived (rowsInFlight source flight) := by
      rw [hmarks]
      split
      · rw [lastArrived_concat, if_neg (by simp)]
      · rw [List.append_nil]
    rw [hlast, h.last_seq]

/-- A frame in turn that arrives, and is not refused. -/
theorem HeardOf.arrives {sub sub' : Subscriber} {r : Outcome Error Applied}
    (h : HeardOf source flight st) (hsent : SentOf source flight v) (hsource : d.frame.source = source)
    (hst : sub.sources.get? source = some st) (hsay : v.say d.frame = some v')
    (hnoted : Noted sub d.frame r sub')
    (hr : (d.frame.isHandshake || d.frame.isIndex) = true → r.isOk = true) :
    ∃ st', sub'.sources.get? source = some st' ∧ HeardOf source (flight ++ [(d, true)]) st' := by
  obtain ⟨env, f, faults⟩ := d
  dsimp only at hsource hsay hnoted hr
  subst hsource
  cases hnoted with
  | refused hnot hwhy _ =>
      rcases hwhy with hkind | hnone
      · rw [hr hkind] at hnot
        exact absurd hnot (by simp)
      · rw [hst] at hnone
        exact absurd hnone (by simp)
  | handshake => exact absurd hsay (by simp [Voice.say])
  | @index source stream ts kind state blob st₁ _ _ hst₁ hsources =>
      have hst : sub.sources.get? source = some st := hst
      rw [hst] at hst₁
      obtain rfl := Option.some.inj hst₁
      obtain ⟨⟨hkind, -⟩, -⟩ := Option.ite_none_right_eq_some.mp hsay
      refine ⟨_, by rw [hsources]; exact OrdMap.get?_insert_self _ _ _, ?_⟩
      obtain ⟨hentries, hmarks⟩ := @inFlight_index source flight
        ⟨env, .index source stream ts kind state blob, faults⟩ true _ _ _ _ _ rfl
      change HeardOf source _ _
      refine ⟨?_, ?_, ?_⟩
      · have hone : passed [(state, true)] = [state] := rfl
        rw [hentries, passed_append, hone, List.getLast?_concat, Option.getD_some]
      · -- the first entry is the full one
        have hfull : v.sent_full = !(entriesInFlight source flight).isEmpty := hsent.sent_full
        have hseen : st.seen_full = (entriesInFlight source flight).head?.any (·.2) := h.seen_full
        rw [hentries]
        dsimp only
        rw [hseen, hkind, hfull]
        cases entriesInFlight source flight with
        | nil => rfl
        | cons x xs => simp [entryKind]
      · rw [hmarks]
        exact h.last_seq
  | @rows source seq state rows st₁ _ _ hst₁ hsources _ =>
      have hst : sub.sources.get? source = some st := hst
      rw [hst] at hst₁
      obtain rfl := Option.some.inj hst₁
      obtain ⟨⟨hseq, -⟩, -⟩ := Option.ite_none_right_eq_some.mp hsay
      refine ⟨_, by rw [hsources]; exact OrdMap.get?_insert_self _ _ _, ?_⟩
      obtain ⟨hentries, hmarks⟩ := @inFlight_rows source flight
        ⟨env, .rows source seq state rows, faults⟩ true _ _ _ rfl
      change HeardOf source _ _
      refine ⟨?_, ?_, ?_⟩
      · rw [hentries]
        exact h.index_state
      · rw [hentries]
        exact h.seen_full
      · rw [hmarks, lastArrived_concat, if_pos rfl, Option.map_some, hseq]
        exact congrArg some hsent.seq
  | @other f st₁ last_offset _ _ hkind hst₁ hst' _ =>
      rw [hst] at hst₁
      obtain rfl := Option.some.inj hst₁
      refine ⟨_, hst', ?_⟩
      have hquiet : f.declares f.source = none ∧ f.isRowsOf f.source = false := by
        cases f with
        | index => exact absurd hkind (by simp [Frame.isHandshake, Frame.isIndex])
        | rows => exact absurd hkind (by simp [Frame.isHandshake, Frame.isIndex, Frame.isRows])
        | _ => exact ⟨rfl, rfl⟩
      exact h.quiet hquiet.1 hquiet.2 rfl rfl rfl

end

/-! ## Whole flights -/

/-- After part of a flight: what the voices said, and what the subscriber remembers of the sources
whose handshake arrived. -/
structure Crossing (flight : Flight) (vs : List Voice) (sub : Subscriber) : Prop where
  sound : sub.Sound
  named : ∀ x ∈ flight, x.1.frame.source.toNat < vs.length
  sent : ∀ (o : UInt32) (v : Voice), vs[o.toNat]? = some v → SentOf o flight v
  heard : ∀ o, Met o flight → ∃ st, sub.sources.get? o = some st ∧ HeardOf o flight st

/-- What the subscriber is left with after a frame that may be lost. -/
def cross (sub : Subscriber) (d : Delivery) (b : Bool) : Subscriber :=
  if b then sub.deliver d else sub

section

variable {flight : Flight} {vs vs' : List Voice} {sub : Subscriber} {d : Delivery} {b : Bool}

theorem crossing_nil (thread : WriterState) : Crossing [] [] (Subscriber.new thread) where
  sound := Subscriber.sound_new thread
  named _ h := absurd h List.not_mem_nil
  sent _ _ h := absurd h (by simp)
  heard o h := by
    obtain ⟨x, hx, -⟩ := h
    exact absurd hx List.not_mem_nil

theorem Subscriber.Sound.cross (h : sub.Sound) (hfaults : d.faults = []) :
    (cross sub d b).Sound := by
  unfold Replicate.cross
  split
  · exact (apply_heard h hfaults).sound h
  · exact h

/-- A frame of another source, lost or not. -/
theorem cross_apart {o : UInt32} (ho : o ≠ d.frame.source) :
    (cross sub d b).sources.get? o = sub.sources.get? o := by
  unfold cross
  split
  · exact (deliver_noted sub d).apart ho
  · rfl

/-- The handshake of a source nothing of which is in flight yet. -/
theorem Crossing.handshake {o : UInt32} {u : Option String} {l m : StringMap} {a : Int64} {c : Bool}
    (h : Crossing flight vs sub) (hd : d.frame = .handshake o u l m a c) (ho : o.toNat = vs.length)
    (hfaults : d.faults = []) :
    Crossing (flight ++ [(d, b)]) (vs ++ [.start l m]) (cross sub d b) := by
  have hsource : d.frame.source = o := by
    rw [hd]
    rfl
  have hentry : ∀ o', d.frame.declares o' = none := fun o' => by
    rw [hd]
    rfl
  have hrows : ∀ o', d.frame.isRowsOf o' = false := fun o' => by
    rw [hd]
    rfl
  have hnew : ∀ x ∈ flight, x.1.frame.source ≠ o := by
    intro x hx heq
    have := h.named x hx
    rw [heq] at this
    omega
  have hentries : entriesInFlight o flight = [] := by
    unfold entriesInFlight
    rw [List.filterMap_eq_nil_iff]
    intro x hx
    rw [declares_other (hnew x hx)]
    rfl
  have hmarks : rowsInFlight o flight = [] := by
    unfold rowsInFlight
    rw [List.map_eq_nil_iff, List.filter_eq_nil_iff]
    intro x hx
    rw [isRowsOf_other (hnew x hx)]
    simp
  refine ⟨h.sound.cross hfaults, fun x hx => ?_, fun o' v hv => ?_, fun o' hmet => ?_⟩
  · rw [List.length_append, List.length_singleton]
    rcases List.mem_append.mp hx with hx | hx
    · have := h.named x hx
      omega
    · rw [List.mem_singleton.mp hx, hsource, ho]
      omega
  · by_cases hold : o'.toNat < vs.length
    · rw [List.getElem?_append_left hold] at hv
      exact (h.sent o' v hv).quiet (hentry o') (hrows o') rfl rfl rfl
    · have hbound := (List.getElem?_eq_some_iff.mp hv).1
      rw [List.length_append, List.length_singleton] at hbound
      obtain rfl : o = o' := UInt32.toNat_inj.mp (by omega)
      rw [ho, List.getElem?_append_right (Nat.le_refl _), Nat.sub_self] at hv
      obtain rfl := Option.some.inj hv
      have hstart : SentOf o flight (.start l m) :=
        ⟨by rw [hentries]; rfl, by rw [hentries]; rfl, by rw [hmarks]; rfl, by rw [hentries]; nofun⟩
      exact hstart.quiet (hentry o) (hrows o) rfl rfl rfl
  · by_cases hat : o' = o
    · subst hat
      -- it is this handshake that arrived
      obtain ⟨x, hx, hmark, -, hx'⟩ := hmet
      rcases List.mem_append.mp hx with hx | hx
      · exact absurd hx' (hnew x hx)
      rw [List.mem_singleton.mp hx] at hmark
      obtain rfl : b = true := hmark
      have hcross : cross sub d true = sub.deliver d := if_pos rfl
      have hnoted := deliver_noted sub d
      have hok := (apply_heard h.sound hfaults).answered (by rw [hd]; simp) fun hnot => by
        rw [hd] at hnot
        exact absurd hnot (by simp [Frame.isHandshake])
      rw [hd] at hnoted
      rw [hcross]
      cases hnoted with
      | refused hr _ _ =>
          rw [hr] at hok
          exact absurd hok (by simp)
      | @handshake _ _ _ _ _ _ writer _ _ hsources =>
          have hstart : HeardOf o' flight (.start writer c) :=
            ⟨by rw [hentries]; rfl, by rw [hentries]; rfl, by rw [hmarks]; rfl⟩
          refine ⟨.start writer c, ?_, hstart.quiet (hentry o') (hrows o') rfl rfl rfl⟩
          rw [hsources]
          exact OrdMap.get?_insert_self _ _ _
      | other hkind => exact absurd hkind (by simp [Frame.isHandshake])
    · have hmet' := met_concat_of_not (fun hthis => hat (hthis.2.2.symm.trans hsource)) hmet
      obtain ⟨st, hst, hheard⟩ := h.heard o' hmet'
      refine ⟨st, ?_, hheard.quiet (hentry o') (hrows o') rfl rfl rfl⟩
      rw [cross_apart (by rw [hsource]; exact hat)]
      exact hst

/-- **One frame in turn**, lost or not. -/
theorem Crossing.step (h : Crossing flight vs sub) (hone : converseOne vs d.frame = some vs')
    (hfaults : d.faults = []) : Crossing (flight ++ [(d, b)]) vs' (cross sub d b) := by
  by_cases hhand : ∃ o u l m a c, d.frame = .handshake o u l m a c
  · obtain ⟨o, u, l, m, a, c, hd⟩ := hhand
    rw [hd] at hone
    obtain ⟨ho, rfl⟩ := converseOne_handshake hone
    exact h.handshake hd ho hfaults
  have hhand : ∀ o u l m a c, d.frame ≠ .handshake o u l m a c :=
    fun o u l m a c heq => hhand ⟨o, u, l, m, a, c, heq⟩
  have hnot : d.frame.isHandshake = false := by
    cases hd : d.frame with
    | handshake => exact absurd hd (hhand _ _ _ _ _ _)
    | _ => rfl
  obtain ⟨v, v', hv, hsay, rfl⟩ := converseOne_say hhand hone
  have hlt : d.frame.source.toNat < vs.length := (List.getElem?_eq_some_iff.mp hv).1
  refine ⟨h.sound.cross hfaults, fun x hx => ?_, fun o w hw => ?_, fun o hmet => ?_⟩
  · rw [List.length_set]
    rcases List.mem_append.mp hx with hx | hx
    · exact h.named x hx
    · rw [List.mem_singleton.mp hx]
      exact hlt
  · by_cases ho : d.frame.source = o
    · subst ho
      rw [List.getElem?_set_self hlt] at hw
      obtain rfl := Option.some.inj hw
      exact (h.sent _ v hv).say rfl hsay
    · have hne : d.frame.source.toNat ≠ o.toNat := fun heq => ho (UInt32.toNat_inj.mp heq)
      rw [List.getElem?_set_ne hne] at hw
      exact (h.sent o w hw).quiet (declares_other ho) (isRowsOf_other ho) rfl rfl rfl
  · have hmet' := met_concat_of_not (fun hthis => by simp [hnot] at hthis) hmet
    obtain ⟨st, hst, hheard⟩ := h.heard o hmet'
    by_cases ho : d.frame.source = o
    · cases b with
      | false => exact ⟨st, hst, hheard.lost⟩
      | true =>
          subst ho
          refine hheard.arrives (h.sent _ v hv) rfl hst hsay (deliver_noted sub d) fun hkind => ?_
          refine (apply_heard h.sound hfaults).answered ?_ fun _ => ⟨st, hst⟩
          intro o stream seg_meta bytes index heq
          rw [heq] at hkind
          exact absurd hkind (by simp [Frame.isHandshake, Frame.isIndex])
    · refine ⟨st, ?_, hheard.quiet (declares_other ho) (isRowsOf_other ho) rfl rfl rfl⟩
      rw [cross_apart (Ne.symm ho)]
      exact hst

end

/-- **A flight of any number of frames**, any of them lost. -/
theorem crossing_run (thread : WriterState) {flight : Flight} {vs : List Voice}
    (hfaults : ∀ x ∈ flight, x.1.faults = [])
    (h : converse [] (flight.map (·.1.frame)) = some vs) :
    Crossing flight vs ((Subscriber.new thread).deliverAll (passed flight)) := by
  induction flight using List.reverseRecOn generalizing vs with
  | nil =>
      obtain rfl := Option.some.inj h
      exact crossing_nil thread
  | append_singleton flight x ih =>
      obtain ⟨d, b⟩ := x
      rw [List.map_append] at h
      unfold converse at h
      rw [List.foldlM_append] at h
      obtain ⟨vs₁, hfirst, hlast⟩ := Option.bind_eq_some_iff.mp h
      have hone : converseOne vs₁ d.frame = some vs := by simpa using hlast
      have hbefore := ih (fun x hx => hfaults x (List.mem_append_left _ hx)) hfirst
      have hstep := hbefore.step (b := b) hone
        (hfaults (d, b) (List.mem_append_right _ (List.mem_singleton_self _)))
      rw [passed_append, Subscriber.deliverAll_append]
      cases b with
      | true => exact hstep
      | false => exact hstep

/-- The frames before one of a flight, and that it is in turn after them. -/
theorem flight_split {before after : Flight} {x : Delivery × Bool} {vs : List Voice}
    (h : converse [] ((before ++ x :: after).map (·.1.frame)) = some vs) : ∃ vs₁ vs₂,
      converse [] (before.map (·.1.frame)) = some vs₁ ∧ converseOne vs₁ x.1.frame = some vs₂ := by
  have hfirst : (before ++ x :: after).map (·.1.frame) =
      (before.map (·.1) ++ x.1 :: after.map (·.1)).map (·.frame) := by
    rw [List.map_append, List.map_cons, List.map_append, List.map_cons, List.map_map, List.map_map]
    rfl
  rw [hfirst] at h
  have hsplit := converse_split h
  rwa [List.map_map] at hsplit

/-! ## A handshake that is lost -/

/-- A source is introduced by one frame of a flight: its handshakes have one mark. -/
theorem handshake_mark {flight : Flight} {vs : List Voice}
    (h : converse [] (flight.map (·.1.frame)) = some vs) {x y : Delivery × Bool} (hx : x ∈ flight)
    (hy : y ∈ flight) (hxhand : x.1.frame.isHandshake = true) (hyhand : y.1.frame.isHandshake = true)
    (hsource : x.1.frame.source = y.1.frame.source) : x.2 = y.2 := by
  -- a handshake takes the next ordinal, so no frame before it is of its source
  have hnew : ∀ before after (z : Delivery × Bool), flight = before ++ z :: after →
      z.1.frame.isHandshake = true → ∀ w ∈ before, w.1.frame.source ≠ z.1.frame.source := by
    intro before after z hsplit hz w hw heq
    rw [hsplit] at h
    obtain ⟨vs₁, vs₂, hfirst, hone⟩ := flight_split h
    have hlt := (converse_inTurn hfirst).1.named w.1.frame (List.mem_map_of_mem hw)
    cases hz' : z.1.frame with
    | handshake o u l m a c =>
        rw [hz'] at hone heq
        have ho := (converseOne_handshake hone).1
        rw [heq] at hlt
        change o.toNat < vs₁.length at hlt
        omega
    | _ =>
        rw [hz'] at hz
        exact absurd hz (by simp [Frame.isHandshake])
  obtain ⟨before, after, hsplit⟩ := List.append_of_mem hx
  have hat : y ∈ before ++ x :: after := hsplit ▸ hy
  rcases List.mem_append.mp hat with hbefore | hat
  · exact absurd hsource.symm (hnew before after x hsplit hxhand y hbefore)
  rcases List.mem_cons.mp hat with rfl | hafter
  · rfl
  · obtain ⟨between, rest, rfl⟩ := List.append_of_mem hafter
    have hsplit' : flight = (before ++ x :: between) ++ y :: rest := by
      rw [hsplit, List.append_assoc]
      rfl
    exact absurd hsource (hnew _ rest y hsplit' hyhand x (by simp))

/-- A source whose handshake has not arrived is unknown, whatever else was delivered. -/
theorem unknown_of_not_met (thread : WriterState) {source : UInt32} : ∀ {flight : Flight},
    ¬Met source flight →
      ((Subscriber.new thread).deliverAll (passed flight)).sources.get? source = none := by
  intro flight
  induction flight using List.reverseRecOn with
  | nil => exact fun _ => rfl
  | append_singleton flight x ih =>
      intro hnot
      obtain ⟨d, b⟩ := x
      have hbefore := ih fun hmet => by
        obtain ⟨y, hy, hmark⟩ := hmet
        exact hnot ⟨y, List.mem_append_left _ hy, hmark⟩
      rw [passed_append, Subscriber.deliverAll_append]
      cases b with
      | false => exact hbefore
      | true =>
          have hnothand : d.frame.isHandshake = true → d.frame.source ≠ source := fun hd hs =>
            hnot ⟨(d, true), List.mem_append_right _ (List.mem_singleton_self _), rfl, hd, hs⟩
          generalize (Subscriber.new thread).deliverAll (passed flight) = sub at hbefore
          change (sub.deliver d).sources.get? source = none
          have hnoted := deliver_noted sub d
          by_cases hs : source = d.frame.source
          · subst hs
            generalize d.frame = f, sub.answer d = r, sub.deliver d = sub' at *
            cases hnoted with
            | refused _ _ hsources => rw [hsources, hbefore]
            | handshake => exact absurd rfl (hnothand rfl)
            | index hst => exact absurd (hst.symm.trans hbefore) (by simp)
            | rows hst => exact absurd (hst.symm.trans hbefore) (by simp)
            | other _ hst => exact absurd (hst.symm.trans hbefore) (by simp)
          · rw [hnoted.apart hs, hbefore]

/-- **A source whose handshake was lost is refused for good**: every frame of it that arrives is
answered as one of a source that no handshake introduced. -/
theorem refused_in_flight (thread : WriterState) {flight before after : Flight} {d : Delivery}
    {vs : List Voice} {x : Delivery × Bool}
    (hheard : converse [] (flight.map (·.1.frame)) = some vs)
    (hfaults : ∀ x ∈ flight, x.1.faults = []) (hx : x ∈ flight) (hlost : x.2 = false)
    (hhand : x.1.frame.isHandshake = true) (hsplit : flight = before ++ (d, true) :: after)
    (hsource : d.frame.source = x.1.frame.source) :
    ((Subscriber.new thread).deliverAll (passed before)).answer d =
      .err (unknownSource d.frame.source) := by
  have hd : (d, true) ∈ flight := by simp [hsplit]
  -- no other handshake of the source is in the flight, before or after
  have hother : ∀ y ∈ flight, y.2 = true → y.1.frame.isHandshake = true →
      y.1.frame.source ≠ x.1.frame.source := fun y hy harrived hyhand heq => by
    rw [← handshake_mark hheard hx hy hhand hyhand heq.symm, hlost] at harrived
    exact Bool.noConfusion harrived
  have hnotmet : ¬Met d.frame.source before := by
    rintro ⟨y, hy, harrived, hyhand, heq⟩
    exact hother y (by simp [hsplit, hy]) harrived hyhand (heq.trans hsource)
  have hnone := unknown_of_not_met thread hnotmet
  rw [hsplit] at hheard
  obtain ⟨vs₁, -, hfirst, -⟩ := flight_split hheard
  have hcrossing := crossing_run thread (fun y hy => hfaults y (by simp [hsplit, hy])) hfirst
  have hanswer := apply_heard hcrossing.sound (hfaults (d, true) hd)
  have hnothand : d.frame.isHandshake ≠ true := fun hdhand => hother (d, true) hd rfl hdhand hsource
  generalize (Subscriber.new thread).deliverAll (passed before) = sub at hnone hanswer
  change Heard sub d.frame (sub.answer d) (sub.deliver d) at hanswer
  generalize d.frame = f, sub.answer d = r, sub.deliver d = sub' at *
  cases hanswer with
  | unknown => rfl
  | handshake => exact absurd rfl hnothand
  | index hst => exact absurd (hst.symm.trans hnone) (by simp)
  | skipped hst => exact absurd (hst.symm.trans hnone) (by simp)
  | written hst => exact absurd (hst.symm.trans hnone) (by simp)
  | segment hst => exact absurd (hst.symm.trans hnone) (by simp)
  | clockOffset hst => exact absurd (hst.symm.trans hnone) (by simp)
  | sourceUpdate hst => exact absurd (hst.symm.trans hnone) (by simp)

/-! ## What a subscriber notices -/

section

variable {source : UInt32} {flight : Flight} {v : Voice} {st : SourceState}

/-- Rows are skipped exactly if the first entry or the newest was lost, where no two entries
declare one state. -/
theorem skips_eq (hheard : HeardOf source flight st) (hsent : SentOf source flight v)
    (hapart : ((entriesInFlight source flight).map (·.1)).Nodup) :
    Subscriber.skips st v.index_state = !resolvable (entriesInFlight source flight) := by
  unfold Subscriber.skips resolvable
  rw [hheard.index_state, hheard.seen_full, hsent.index_state]
  have hdeclared := hsent.declared
  have hnewest := newest_passed_iff hapart
  generalize entriesInFlight source flight = entries at hdeclared hnewest ⊢
  rcases List.eq_nil_or_concat entries with rfl | ⟨before, ⟨state, b⟩, rfl⟩
  · rfl
  rw [List.concat_eq_append] at hdeclared hnewest ⊢
  have hne : state ≠ NO_INDEX_STATE :=
    hdeclared (state, b) (List.mem_append_right _ (List.mem_singleton_self _))
  rw [List.map_append, List.map_singleton, List.getLast?_concat] at hnewest ⊢
  rw [List.getLast?_concat] at hnewest ⊢
  rw [Option.getD_some]
  have hhead : ∃ x, (before ++ [(state, b)]).head? = some x := by
    cases before with
    | nil => exact ⟨_, rfl⟩
    | cons x xs => exact ⟨x, rfl⟩
  obtain ⟨x, hx⟩ := hhead
  rw [hx]
  -- the state held is the one declared exactly if the newest entry arrived
  have hsame : state = ((passed (before ++ [(state, b)])).getLast?).getD NO_INDEX_STATE ↔ b = true := by
    rcases hlast : (passed (before ++ [(state, b)])).getLast? with _ | held
    · rw [hlast] at hnewest
      refine ⟨fun heq => absurd heq hne, fun hb => ?_⟩
      have := hnewest.mpr fun y hy => by rw [← Option.some.inj hy]; exact hb
      exact absurd this (by simp)
    · rw [hlast] at hnewest
      rw [Option.getD_some]
      constructor
      · intro heq
        exact hnewest.mp (by rw [heq]) (state, b) rfl
      · intro hb
        have := hnewest.mpr fun y hy => by rw [← Option.some.inj hy]; exact hb
        exact (Option.some.inj this).symm
  cases b with
  | true =>
      rw [← hsame.mpr rfl]
      simp [hne]
  | false =>
      have hdiffers : state ≠ ((passed (before ++ [(state, false)])).getLast?).getD NO_INDEX_STATE :=
        fun heq => absurd (hsame.mp heq) (by simp)
      simp [hdiffers]

/-- A gap is reported exactly if the last `rows` frame was lost and an earlier one was not. -/
theorem isGap_eq (hheard : HeardOf source flight st) (hsent : SentOf source flight v)
    (hcount : (rowsInFlight source flight).length < 2 ^ 64) :
    Subscriber.isGap st.last_seq v.seq = interrupted (rowsInFlight source flight) := by
  rw [hheard.last_seq, hsent.seq]
  unfold interrupted
  generalize rowsInFlight source flight = rows at hcount ⊢
  rcases hlast : lastArrived rows with _ | i
  · have hnone := lastArrived_eq_none_iff.mp hlast
    simp [Subscriber.isGap, hnone]
  · have hlt := lastArrived_lt hlast
    have hsome : true ∈ rows := by
      by_contra hnone
      rw [lastArrived_eq_none_iff.mpr hnone] at hlast
      exact absurd hlast (by simp)
    have hvalue : ∀ n < 2 ^ 64, (UInt64.ofNat n).toNat = n := fun n hn => UInt64.toNat_ofNat_of_lt' hn
    have hnext : Subscriber.saturatingSucc (UInt64.ofNat i) = UInt64.ofNat (i + 1) := by
      unfold Subscriber.saturatingSucc
      rw [if_neg]
      · rw [UInt64.ofNat_add]
        rfl
      · intro heq
        have := congrArg UInt64.toNat heq
        rw [hvalue i (by omega), hvalue _ (by decide)] at this
        omega
    have hgap : Subscriber.isGap ((some i).map UInt64.ofNat) (UInt64.ofNat rows.length) =
        decide (i + 1 < rows.length) := by
      have hless : UInt64.ofNat (i + 1) < UInt64.ofNat rows.length ↔ i + 1 < rows.length := by
        rw [UInt64.lt_iff_toNat_lt, hvalue (i + 1) (by omega), hvalue _ hcount]
      unfold Subscriber.isGap
      rw [Option.map_some]
      dsimp only
      rw [hnext]
      exact decide_eq_decide.mpr hless
    have hiff := lastArrived_succ_iff hlast
    rw [hgap]
    rcases List.eq_nil_or_concat rows with rfl | ⟨rows, b, rfl⟩
    · exact absurd hsome List.not_mem_nil
    rw [List.concat_eq_append] at *
    rw [List.getLast?_concat] at hiff ⊢
    have hcontains : (rows ++ [b]).contains true = true := by simpa using hsome
    rw [hcontains, Bool.true_and]
    cases b with
    | true =>
        have hnewest := hiff.mpr rfl
        rw [hnewest]
        simp
    | false =>
        have hnot : i + 1 ≠ (rows ++ [false]).length := fun heq => absurd (hiff.mp heq) (by simp)
        have : i + 1 < (rows ++ [false]).length := by omega
        simpa using this

end

/-- What the subscriber answers of rows, in terms of what arrived before. -/
def answerOf (source : UInt32) (before : Flight) (rows : List WalRow) : Applied :=
  if resolvable (entriesInFlight source before) then
    { Applied.none with rows := rows.length, gap := interrupted (rowsInFlight source before) }
  else { Applied.none with
    rows_skipped := rows.length, gap := interrupted (rowsInFlight source before) }

/-- A `rows` frame that arrives, on a flight in turn. -/
theorem answer_in_flight (thread : WriterState) {before after : Flight} {d : Delivery}
    {vs : List Voice} {source : UInt32} {seq : UInt64} {state : IndexState} {rows : List WalRow}
    (hheard : converse [] ((before ++ (d, true) :: after).map (·.1.frame)) = some vs)
    (hfaults : ∀ x ∈ before ++ (d, true) :: after, x.1.faults = [])
    (hd : d.frame = .rows source seq state rows) (hmet : Met source before)
    (hapart : ((entriesInFlight source before).map (·.1)).Nodup)
    (hcount : (rowsInFlight source before).length < 2 ^ 64) :
    ((Subscriber.new thread).deliverAll (passed before)).answer d =
      .ok (answerOf source before rows) := by
  obtain ⟨vs₁, vs₂, hfirst, hone⟩ := flight_split hheard
  have hcrossing := crossing_run thread (fun x hx => hfaults x (List.mem_append_left _ hx)) hfirst
  obtain ⟨st, hst, hheardOf⟩ := hcrossing.heard source hmet
  rw [hd] at hone
  obtain ⟨v, v', hv, hsay, -⟩ := converseOne_say (by simp) hone
  obtain ⟨⟨hseq, hstate⟩, -⟩ := Option.ite_none_right_eq_some.mp hsay
  have hsent := hcrossing.sent source v hv
  have hskips := skips_eq hheardOf hsent hapart
  have hgap := isGap_eq hheardOf hsent hcount
  rw [← hstate] at hskips
  rw [← hseq] at hgap
  have hanswer := apply_heard hcrossing.sound
    (hfaults (d, true) (List.mem_append_right _ List.mem_cons_self))
  rw [hd] at hanswer
  generalize ((Subscriber.new thread).deliverAll (passed before)).answer d = r at hanswer ⊢
  generalize ((Subscriber.new thread).deliverAll (passed before)).deliver d = sub' at hanswer
  unfold answerOf
  cases hanswer with
  | skipped hst' hskipped =>
      rw [hst] at hst'
      obtain rfl := Option.some.inj hst'
      rw [hskips, Bool.not_eq_true'] at hskipped
      rw [hskipped, hgap, if_neg (by simp)]
  | written hst' hskipped _ =>
      rw [hst] at hst'
      obtain rfl := Option.some.inj hst'
      rw [hskips, Bool.not_eq_false'] at hskipped
      rw [hskipped, hgap, if_pos rfl]
  | unknown _ hnone =>
      have hnone : ((Subscriber.new thread).deliverAll (passed before)).sources.get? source = none :=
        hnone
      rw [hst] at hnone
      exact absurd hnone (by simp)

/-- **What a subscriber notices of a lossy connection.** Over any history of the publisher's
archive and any calls none of which failed, with the frames delivered in order and any of them lost,
to a subscriber whose storage does not fail: of a `rows` frame that arrives, of a source whose
handshake arrived, no two of whose entries declare one state and of which there are fewer than
`2 ^ 64` `rows` frames, the rows are written exactly if the first entry and the newest arrived,
whatever was lost between them, and skipped otherwise; and a gap is reported exactly if the last
`rows` frame before it was lost and an earlier one was not. -/
theorem lossy_rows_answered {since : Option Int64} {batches : List (List Frame)} {db : Archive}
    {p : ArchivePublisher} (hp : Published since batches db p) (thread : WriterState)
    {flight before after : Flight} {d : Delivery} {source : UInt32} {seq : UInt64}
    {state : IndexState} {rows : List WalRow}
    (hframes : flight.map (·.1.frame) = batches.flatten) (hfaults : ∀ x ∈ flight, x.1.faults = [])
    (hsplit : flight = before ++ (d, true) :: after) (hd : d.frame = .rows source seq state rows)
    (hmet : Met source before)
    (hapart : ((entriesInFlight source before).map (·.1)).Nodup)
    (hcount : (rowsInFlight source before).length < 2 ^ 64) :
    ((Subscriber.new thread).deliverAll (passed before)).answer d =
      .ok (answerOf source before rows) := by
  have hheard := (published_connected hp).heard
  rw [← hframes] at hheard
  subst hsplit
  exact answer_in_flight thread hheard hfaults hd hmet hapart hcount

/-- An archive of one source, with three entries and a row. -/
def withEntries : Archive :=
  ((oneSource.insertCallerRows 1 "cpu" [⟨5, [1]⟩, ⟨6, [2]⟩, ⟨7, [3]⟩]).bind
    (Archive.insertWalRows 1 [⟨"cpu", 8, 0, [4]⟩])).toOption.getD oneSource

/-- The state after the first of the entries, and after each of the others. -/
def firstState : IndexState := foldIndexState NO_INDEX_STATE 5 [1]
def secondState : IndexState := foldIndexState firstState 6 [2]
def thirdState : IndexState := foldIndexState secondState 7 [3]

/-- Their `rows` frame. -/
def entriesRows : Delivery := ⟨.idle, .rows 0 0 thirdState [⟨"cpu", 8, 0, [4]⟩], []⟩

/-- All but the second of the entries arrive. -/
def secondLost : Flight :=
  [(⟨.idle, .handshake 0 (some "u") ∅ ∅ 0 false, []⟩, true),
    (⟨.idle, .index 0 "cpu" 5 .full firstState [1], []⟩, true),
    (⟨.idle, .index 0 "cpu" 6 .delta secondState [2], []⟩, false),
    (⟨.idle, .index 0 "cpu" 7 .delta thirdState [3], []⟩, true)]

theorem published_entries : ∃ batches p, Published none batches withEntries p ∧
    batches.flatten = (secondLost ++ [(entriesRows, true)]).map (·.1.frame) := by
  have hopened : Published none [[.handshake 0 (some "u") ∅ ∅ 0 false]] oneSource openedEmpty :=
    @Published.opened none _ _ _ [] []
      (Prod.ext (by decide +kernel) (Prod.ext rfl (by decide +kernel)))
  have hpolled := @Published.polled none _ oneSource withEntries 1 _
    (ArchivePublisher.next withEntries 1 openedEmpty []).2.1
    [.index 0 "cpu" 5 .full firstState [1], .index 0 "cpu" 6 .delta secondState [2],
      .index 0 "cpu" 7 .delta thirdState [3], .rows 0 0 thirdState [⟨"cpu", 8, 0, [4]⟩]] [] [] hopened
    (Prod.ext (by decide +kernel) (Prod.ext rfl (by decide +kernel)))
  exact ⟨_, _, hpolled, rfl⟩

/-- **An entry that is lost between the first and the newest goes unnoticed**: the rows that were
recorded against it are written. -/
theorem lossy_rows_answered_secondLost :
    ((Subscriber.new (.mk (World.create .table).disk (.seed (.create .table)))).deliverAll
      (passed secondLost)).answer entriesRows = .ok { Applied.none with rows := 1 } := by
  obtain ⟨batches, p, hp, hframes⟩ := published_entries
  exact lossy_rows_answered hp (.mk (World.create .table).disk (.seed (.create .table)))
    hframes.symm (by decide) rfl rfl ⟨_, List.mem_cons_self, rfl, rfl, rfl⟩
    (by decide +kernel) (by decide)

end Dendro.Replicate
