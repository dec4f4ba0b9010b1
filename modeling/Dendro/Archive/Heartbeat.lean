import Mathlib.Data.List.Induction
import Dendro.Archive.Store

/-!
# The heartbeat watch

`HeartbeatWatch` judges from successive reads of a source whether its writer is running. It keeps
one pair, a heartbeat and when it was first seen, where the question is about the whole trace of
reads: is there one since which the heartbeat stood still, for three intervals at least?

`Tied` says what the pair is of the trace: the heartbeat of the newest read that counts, and the
time of the oldest read since which every read that counts showed it.

An instant is a count of nanoseconds. An interval is below `2^63` of them, so three of them are a
`Duration` and the product cannot overflow.
-/

namespace Dendro

/-- A reading of the reader's own clock. -/
abbrev Instant := Nat

/-- What the watch concludes. -/
inductive Archive.WriterState where
  /-- The source was finalized. -/
  | complete
  /-- The heartbeat changed, or was watched for fewer than three intervals. -/
  | live
  | stopped
  /-- The source has no heartbeat. -/
  | unknown
  deriving DecidableEq, Repr

/-- How many intervals without a change make a writer stopped. -/
def STOPPED_AFTER_INTERVALS : Nat := 3

/-- The last heartbeat seen and when it was first seen. -/
structure HeartbeatWatch where
  seen : Option (Int64 × Instant)
  deriving DecidableEq, Repr

namespace HeartbeatWatch

/-- A watch that has seen nothing yet. -/
def new : HeartbeatWatch := { seen := none }

/-- What follows from a heartbeat that may be told by its interval. -/
def beat (w : HeartbeatWatch) (beat interval : Int64) (now : Instant) :
    HeartbeatWatch × Archive.WriterState :=
  match w.seen with
  | some (seen, since) =>
    if seen = beat then
      if now - since ≥ interval.toInt.toNat * STOPPED_AFTER_INTERVALS then (w, .stopped)
      else (w, .live)
    else ({ seen := some (beat, now) }, .live)
  | none => ({ seen := some (beat, now) }, .live)

/-- Fold in one read of `source` taken at `now`. -/
def observe (w : HeartbeatWatch) (source : SourceRow) (now : Instant) :
    HeartbeatWatch × Archive.WriterState :=
  if source.complete then (w, .complete)
  else match source.heartbeat, source.heartbeat_interval_ns with
    | some beat, some interval =>
      if interval ≤ 0 then (w, .unknown) else w.beat beat interval now
    | _, _ => (w, .unknown)

end HeartbeatWatch

/-! ## The trace -/

/-- A read of the source. -/
structure Observation where
  source : SourceRow
  now : Instant

namespace Observation

/-- A read that counts, with its heartbeat and its interval: the source is not complete and has
both, the interval positive. -/
structure Shows (o : Observation) (beat interval : Int64) : Prop where
  incomplete : o.source.complete = false
  heartbeat : o.source.heartbeat = some beat
  interval_ns : o.source.heartbeat_interval_ns = some interval
  positive : 0 < interval

/-- The reads that count. -/
def Considered (o : Observation) : Prop := ∃ beat interval, o.Shows beat interval

end Observation

open Observation

/-- The watch after some reads. -/
def watched (trace : List Observation) : HeartbeatWatch :=
  trace.foldl (fun w o => (w.observe o.source o.now).1) .new

/-- `m` is a read that counts, and every such read from it on shows the same heartbeat. -/
def StillSince (trace : List Observation) (m : Observation) (beat : Int64) : Prop :=
  ∃ before after, trace = before ++ m :: after ∧ m.Considered ∧
    ∀ o ∈ m :: after, o.Considered → o.source.heartbeat = some beat

/-- The trace's verdict: an earlier read since which the heartbeat stood still, three of the
interval ago. -/
def StoodStill (trace : List Observation) (beat interval : Int64) (now : Instant) : Prop :=
  ∃ m, StillSince trace m beat ∧ 3 * interval.toInt.toNat ≤ now - m.now

/-! ## One read -/

variable {trace : List Observation} {o m : Observation} {b c interval : Int64}
  {w : HeartbeatWatch}

theorem observe_shows (h : o.Shows b interval) :
    w.observe o.source o.now = w.beat b interval o.now := by
  have hpos : ¬ interval ≤ 0 := Int64.not_le.mpr h.positive
  simp [HeartbeatWatch.observe, h.incomplete, h.heartbeat, h.interval_ns, hpos]

/-- A read that does not count leaves the watch as it was. -/
theorem observe_unconsidered (h : ¬ o.Considered) : (w.observe o.source o.now).1 = w := by
  unfold HeartbeatWatch.observe
  split
  · rfl
  · rename_i hcomplete
    split
    · rename_i beat interval hbeat hinterval
      split
      · rfl
      · rename_i hpos
        refine absurd ⟨beat, interval, ?_, hbeat, hinterval, Int64.not_le.mp hpos⟩ h
        simpa using hcomplete
    · rfl

/-- The heartbeat stood still up to and with a read that does not count. -/
theorem stillSince_unconsidered (h : ¬ o.Considered) :
    StillSince (trace ++ [o]) m b ↔ StillSince trace m b := by
  constructor
  · rintro ⟨before, after, heq, hm, hall⟩
    rcases List.eq_nil_or_concat after with rfl | ⟨after, last, rfl⟩
    · obtain ⟨-, hlast⟩ := List.append_inj' heq rfl
      exact absurd (List.singleton_inj.mp hlast ▸ hm) h
    · rw [List.concat_eq_append] at heq hall
      rw [← List.cons_append, ← List.append_assoc] at heq
      obtain ⟨hfront, -⟩ := List.append_inj' heq rfl
      exact ⟨before, after, hfront, hm, fun x hx => hall x (by simp at hx ⊢; tauto)⟩
  · rintro ⟨before, after, rfl, hm, hall⟩
    refine ⟨before, after ++ [o], by simp, hm, fun x hx hc => ?_⟩
    rw [← List.cons_append] at hx
    rcases List.mem_append.mp hx with hx | hx
    · exact hall x hx hc
    · exact absurd (List.mem_singleton.mp hx ▸ hc) h

/-- The heartbeat stood still up to and with a read that counts: it shows that heartbeat. -/
theorem stillSince_shows (h : o.Shows c interval) :
    StillSince (trace ++ [o]) m b ↔ b = c ∧ (m = o ∨ StillSince trace m c) := by
  have ho : o.Considered := ⟨c, interval, h⟩
  constructor
  · rintro ⟨before, after, heq, hm, hall⟩
    rcases List.eq_nil_or_concat after with rfl | ⟨after, last, rfl⟩
    · obtain ⟨-, hlast⟩ := List.append_inj' heq rfl
      obtain rfl := List.singleton_inj.mp hlast
      have hb := hall o (by simp) ho
      exact ⟨Option.some.inj (hb.symm.trans h.heartbeat), .inl rfl⟩
    · rw [List.concat_eq_append] at heq hall
      rw [← List.cons_append, ← List.append_assoc] at heq
      obtain ⟨hfront, hlast⟩ := List.append_inj' heq rfl
      obtain rfl := List.singleton_inj.mp hlast
      have hb := hall o (by simp) ho
      obtain rfl := Option.some.inj (hb.symm.trans h.heartbeat)
      exact ⟨rfl, .inr ⟨before, after, hfront, hm, fun x hx => hall x (by simp at hx ⊢; tauto)⟩⟩
  · rintro ⟨rfl, rfl | ⟨before, after, rfl, hm, hall⟩⟩
    · refine ⟨trace, [], rfl, ho, fun x hx _ => ?_⟩
      rw [List.mem_singleton.mp hx]
      exact h.heartbeat
    · refine ⟨before, after ++ [o], by simp, hm, fun x hx hc => ?_⟩
      rw [← List.cons_append] at hx
      rcases List.mem_append.mp hx with hx | hx
      · exact hall x hx hc
      · rw [List.mem_singleton.mp hx]
        exact h.heartbeat

/-! ## Every trace -/

/-- What the pair is of the trace. -/
structure Tied (trace : List Observation) (w : HeartbeatWatch) : Prop where
  /-- It stood still since the time that is kept. -/
  sound : ∀ b since, w.seen = some (b, since) → ∃ m, StillSince trace m b ∧ m.now = since
  /-- And no longer. -/
  oldest : ∀ m b, StillSince trace m b → ∃ since, w.seen = some (b, since) ∧ since ≤ m.now

theorem tied_nil : Tied [] .new where
  sound _ _ h := absurd h (by simp [HeartbeatWatch.new])
  oldest _ _ h := by
    obtain ⟨before, after, heq, -⟩ := h
    simp at heq

/-- A heartbeat that was seen already leaves the pair as it is. -/
theorem beat_seen {since now : Instant} (h : w.seen = some (b, since)) :
    (w.beat b interval now).1 = w := by
  unfold HeartbeatWatch.beat
  rw [h]
  dsimp only
  rw [if_pos rfl]
  split <;> rfl

/-- A heartbeat that was not the last one is kept from now on. -/
theorem beat_unseen {now : Instant} (h : ∀ since, w.seen ≠ some (b, since)) :
    w.beat b interval now = ({ seen := some (b, now) }, .live) := by
  unfold HeartbeatWatch.beat
  rcases hs : w.seen with _ | ⟨seen, since⟩
  · rfl
  · have hne : seen ≠ b := fun heq => h since (heq ▸ hs)
    dsimp only
    rw [if_neg hne]

/-- **One read keeps the pair tied to the trace.** -/
theorem Tied.step (h : Tied trace w) (htimes : ∀ x ∈ trace, x.now ≤ o.now) :
    Tied (trace ++ [o]) (w.observe o.source o.now).1 := by
  by_cases hc : o.Considered
  · obtain ⟨c, interval, ho⟩ := hc
    rw [observe_shows ho]
    have hself : StillSince (trace ++ [o]) o c := (stillSince_shows ho).mpr ⟨rfl, .inl rfl⟩
    by_cases hseen : ∃ since, w.seen = some (c, since)
    · obtain ⟨since, hseen⟩ := hseen
      rw [beat_seen hseen]
      obtain ⟨m, hm, hnow⟩ := h.sound c since hseen
      have hsince : since ≤ o.now := by
        obtain ⟨before, after, heq, -⟩ := hm
        exact hnow ▸ htimes m (by simp [heq])
      constructor
      · intro b since' hb
        obtain ⟨rfl, rfl⟩ := Prod.mk.inj (Option.some.inj (hseen.symm.trans hb))
        exact ⟨m, (stillSince_shows ho).mpr ⟨rfl, .inr hm⟩, hnow⟩
      · intro m' b hm'
        obtain ⟨rfl, hm'⟩ := (stillSince_shows ho).mp hm'
        rcases hm' with rfl | hm'
        · exact ⟨since, hseen, hsince⟩
        · exact h.oldest m' b hm'
    · -- the heartbeat changed: no read before this one shows it from there on
      have hnone : ∀ since, w.seen ≠ some (c, since) := fun since hs => hseen ⟨since, hs⟩
      rw [beat_unseen hnone]
      constructor
      · intro b since hb
        obtain ⟨rfl, rfl⟩ := Prod.mk.inj (Option.some.inj hb)
        exact ⟨o, hself, rfl⟩
      · intro m' b hm'
        obtain ⟨rfl, hm'⟩ := (stillSince_shows ho).mp hm'
        rcases hm' with rfl | hm'
        · exact ⟨_, rfl, Nat.le_refl _⟩
        · obtain ⟨since, hs, -⟩ := h.oldest m' b hm'
          exact absurd hs (hnone since)
  · rw [observe_unconsidered hc]
    constructor
    · intro b since hb
      obtain ⟨m, hm, hnow⟩ := h.sound b since hb
      exact ⟨m, (stillSince_unconsidered hc).mpr hm, hnow⟩
    · intro m b hm
      exact h.oldest m b ((stillSince_unconsidered hc).mp hm)

/-- **The pair is tied to every trace.** -/
theorem tied_watched (htimes : trace.Pairwise fun x y => x.now ≤ y.now) :
    Tied trace (watched trace) := by
  induction trace using List.reverseRecOn with
  | nil => exact tied_nil
  | append_singleton trace o ih =>
      obtain ⟨hbefore, -, hlast⟩ := List.pairwise_append.mp htimes
      have hstep := (ih hbefore).step fun x hx => hlast x hx o (by simp)
      simpa [watched, List.foldl_append] using hstep

/-- **The watch's verdict is the trace's verdict.** A read that counts is answered `stopped`
exactly where the heartbeat stood still for three of its intervals, and `live` otherwise,
whatever reads that do not count lie between. -/
theorem observe_verdict {n : Observation}
    (htimes : (trace ++ [n]).Pairwise fun x y => x.now ≤ y.now) (hn : n.Shows b interval) :
    (((watched trace).observe n.source n.now).2 = .stopped ↔
        StoodStill trace b interval n.now) ∧
      (¬ StoodStill trace b interval n.now →
        ((watched trace).observe n.source n.now).2 = .live) := by
  have htied : Tied trace (watched trace) := tied_watched (List.pairwise_append.mp htimes).1
  rw [observe_shows hn]
  by_cases hseen : ∃ since, (watched trace).seen = some (b, since)
  · obtain ⟨since, hseen⟩ := hseen
    have hiff : n.now - since ≥ interval.toInt.toNat * STOPPED_AFTER_INTERVALS ↔
        StoodStill trace b interval n.now := by
      constructor
      · intro hge
        obtain ⟨m, hm, rfl⟩ := htied.sound b since hseen
        exact ⟨m, hm, Nat.mul_comm _ _ ▸ hge⟩
      · rintro ⟨m, hm, hge⟩
        obtain ⟨since', hseen', hle⟩ := htied.oldest m b hm
        obtain ⟨-, rfl⟩ := Prod.mk.inj (Option.some.inj (hseen.symm.trans hseen'))
        calc interval.toInt.toNat * STOPPED_AFTER_INTERVALS
            = 3 * interval.toInt.toNat := Nat.mul_comm _ _
          _ ≤ n.now - m.now := hge
          _ ≤ n.now - since := Nat.sub_le_sub_left hle _
    have hbeat : ((watched trace).beat b interval n.now).2 =
        if n.now - since ≥ interval.toInt.toNat * STOPPED_AFTER_INTERVALS then .stopped
        else .live := by
      rw [HeartbeatWatch.beat, hseen]
      dsimp only
      rw [if_pos rfl]
      split <;> rfl
    rw [hbeat, ← hiff]
    split <;> simp_all
  · have hnone : ∀ since, (watched trace).seen ≠ some (b, since) := fun s hs => hseen ⟨s, hs⟩
    have hnot : ¬ StoodStill trace b interval n.now := by
      rintro ⟨m, hm, -⟩
      obtain ⟨since, hs, -⟩ := htied.oldest m b hm
      exact hnone since hs
    rw [beat_unseen hnone]
    exact ⟨⟨fun h => absurd h (by simp), fun h => absurd h hnot⟩, fun _ => rfl⟩

/-- A read of a source whose writer beats every 10 ns. -/
def beating (beat : Int64) (now : Instant) : Observation where
  source :=
    { identity := { labels := ∅, metadata := ∅, clock_anchor_wall_ns := 0 }, uuid := none,
      complete := false, heartbeat := some beat, heartbeat_interval_ns := some 10, id := 1 }
  now

/-- The heartbeat was 7 before and is 7 again since instant 5. -/
theorem observe_verdict_beating :
    let trace := [beating 7 0, beating 8 4, beating 7 5, beating 7 20]
    (((watched trace).observe (beating 7 34).source 34).2 = .stopped ↔ StoodStill trace 7 10 34) ∧
      (¬ StoodStill trace 7 10 34 →
        ((watched trace).observe (beating 7 34).source 34).2 = .live) :=
  @observe_verdict [beating 7 0, beating 8 4, beating 7 5, beating 7 20] 7 10 (beating 7 34)
    (by decide) ⟨rfl, rfl, rfl, by decide⟩

example : ((watched [beating 7 0, beating 8 4, beating 7 5, beating 7 20]).observe
    (beating 7 35).source 35).2 = .stopped := by decide

end Dendro
