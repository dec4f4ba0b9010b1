import Dendro.Replicate.Connection
import Dendro.Replicate.Delivery
import Dendro.Writer.World

/-!
# The identity of a copied source

A subscriber that hears every frame of a connection holds, for each source, a row of its own
archive with the labels its voice said last and with its metadata, but for the keys that the
copy's own writer maintains (`Mirrors`). The publisher's cursors are current after every call,
so the copy is too.
-/

namespace Dendro.Replicate

open Dendro

/-! ## Rows of the copy -/

/-- The entries that the writer of the copy maintains are as they were, in every row. -/
def KeepsMaintained (a a' : Archive) : Prop :=
  ∀ id cols, a.sources.get? id = some cols → ∃ cols', a'.sources.get? id = some cols' ∧
    ∀ key ∈ maintained, ∀ v, cols.identity.metadata.get? key = some v →
      cols'.identity.metadata.get? key = some v

theorem KeepsMaintained.refl (a : Archive) : KeepsMaintained a a :=
  fun _ cols h => ⟨cols, h, fun _ _ _ hv => hv⟩

theorem KeepsMaintained.trans {a b c : Archive} (h : KeepsMaintained a b)
    (h' : KeepsMaintained b c) : KeepsMaintained a c := by
  intro id cols hcols
  obtain ⟨cols₁, hcols₁, hkept₁⟩ := h id cols hcols
  obtain ⟨cols₂, hcols₂, hkept₂⟩ := h' id cols₁ hcols₁
  exact ⟨cols₂, hcols₂, fun key hkey v hv => hkept₂ key hkey v (hkept₁ key hkey v hv)⟩

theorem KeepsMaintained.of_sources {a a' : Archive} (h : a'.sources = a.sources) :
    KeepsMaintained a a' := fun id cols hcols => ⟨cols, by rw [h, hcols], fun _ _ _ hv => hv⟩

section Heard

variable {sub sub' : Subscriber} {f : Frame} {r : Outcome Error Applied}

/-- Only a handshake and a change of identity touch the rows of the copy's sources. -/
theorem Heard.sources_same (h : Heard sub f r sub')
    (hhand : ∀ o u l m a c, f ≠ .handshake o u l m a c)
    (hupdate : ∀ o ts l m, f ≠ .sourceUpdate o ts l m) :
    sub'.thread.db.sources = sub.thread.db.sources := by
  cases h with
  | handshake => exact absurd rfl (hhand _ _ _ _ _ _)
  | index _ hdb _ =>
      have htables := Archive.insertCallerRows_tables hdb
      rw [htables]
  | skipped => rfl
  | written _ _ hwal =>
      have hframe := hwal.db
      rw [hframe]
  | segment _ hend =>
      cases hend with
      | inserted _ hadopt _ =>
          have htables := (Archive.insertSegment_ok hadopt).2
          rw [htables]
      | held _ hdb _ => rw [hdb]
      | refused _ hdb _ => rw [hdb]
  | clockOffset _ hdb _ =>
      have htables := Archive.insertClockOffset_tables hdb
      rw [htables]
  | sourceUpdate => exact absurd rfl (hupdate _ _ _ _)
  | unknown => rfl

/-- **No frame removes or replaces an entry that the copy's writer maintains.** -/
theorem Heard.keepsMaintained (h : Heard sub f r sub') :
    KeepsMaintained sub.thread.db sub'.thread.db := by
  cases f with
  | handshake source uuid labels metadata anchor complete =>
      cases h with
      | handshake hset =>
          intro id cols hcols
          have hne : id ≠ sub.thread.db.nextSourceId := by
            rintro rfl
            rw [sub.thread.db.nextSourceId_fresh] at hcols
            exact absurd hcols (by simp)
          exact ⟨cols, by rw [hset.row.others id hne, hcols], fun _ _ _ hv => hv⟩
      | unknown hnot _ => exact absurd rfl (hnot _ _ _ _ _ _)
  | sourceUpdate source ts labels metadata =>
      cases h with
      | @sourceUpdate _ _ _ _ st old thread hst hold hset =>
          intro id cols hcols
          by_cases hid : id = st.writer
          · subst hid
            rw [hold] at hcols
            obtain rfl := Option.some.inj hcols
            obtain ⟨cols', hcols', hrenamed⟩ := hset.row.row
            exact ⟨cols', hcols', hrenamed.kept⟩
          · exact ⟨cols, by rw [hset.row.others id hid, hcols], fun _ _ _ hv => hv⟩
      | unknown => exact .refl _
  | _ => exact .of_sources (h.sources_same (by simp) (by simp))

/-- Only a handshake touches the handles. -/
theorem Heard.writers_same (h : Heard sub f r sub')
    (hhand : ∀ o u l m a c, f ≠ .handshake o u l m a c) (o : UInt32) :
    (sub'.sources.get? o).map (·.writer) = (sub.sources.get? o).map (·.writer) := by
  have hinsert : ∀ {source : UInt32} {st new : SourceState}, sub.sources.get? source = some st →
      new.writer = st.writer → ((sub.sources.insert source new).get? o).map (·.writer) =
        (sub.sources.get? o).map (·.writer) := by
    intro source st new hst hwriter
    rw [OrdMap.get?_insert]
    split
    · rename_i ho
      rw [ho, hst, Option.map_some, Option.map_some, hwriter]
    · rfl
  cases h with
  | handshake => exact absurd rfl (hhand _ _ _ _ _ _)
  | index hst _ _ => exact hinsert hst rfl
  | skipped hst _ => exact hinsert hst rfl
  | written hst _ _ => exact hinsert hst rfl
  | segment => rfl
  | clockOffset hst _ _ => exact hinsert hst rfl
  | sourceUpdate => rfl
  | unknown => rfl

/-- A handle is an old one, or of the source that the frame introduced. -/
theorem Heard.handles (h : Heard sub f r sub') {o : UInt32} {st' : SourceState}
    (hst' : sub'.sources.get? o = some st') :
    (∃ st, sub.sources.get? o = some st ∧ st'.writer = st.writer) ∨
      ∃ u l m a c, f = .handshake o u l m a c ∧
        RowSet sub.thread st'.writer (Seeded ⟨l, m, a⟩ u) sub'.thread := by
  have hold : (∀ o u l m a c, f ≠ .handshake o u l m a c) →
      ∃ st, sub.sources.get? o = some st ∧ st'.writer = st.writer := by
    intro hhand
    have hsame := h.writers_same hhand o
    rw [hst', Option.map_some, eq_comm, Option.map_eq_some_iff] at hsame
    obtain ⟨st, hst, hwriter⟩ := hsame
    exact ⟨st, hst, hwriter.symm⟩
  cases h with
  | @handshake source uuid labels metadata anchor complete thread hset =>
      have hget : (sub.sources.insert source
        (.start sub.thread.db.nextSourceId complete)).get? o = some st' := hst'
      rw [OrdMap.get?_insert] at hget
      split at hget
      · rename_i ho
        obtain rfl := Option.some.inj hget
        subst ho
        exact .inr ⟨uuid, labels, metadata, anchor, complete, rfl, hset⟩
      · exact .inl ⟨st', hget, rfl⟩
  | unknown hhand _ => exact .inl (hold hhand)
  | _ => exact .inl (hold (by simp))

/-- A row of the copy is still a row after a frame. -/
theorem Heard.row (h : Heard sub f r sub') {id : Int} {cols : SourceCols}
    (hcols : sub.thread.db.sources.get? id = some cols) :
    ∃ cols', sub'.thread.db.sources.get? id = some cols' := by
  obtain ⟨cols', hcols', -⟩ := h.keepsMaintained id cols hcols
  exact ⟨cols', hcols'⟩

theorem Heard.stopped (h : Heard sub f r sub') : sub'.stopped = sub.stopped := by
  cases h <;> rfl

/-- **A subscriber stays sound.** -/
theorem Heard.sound (h : Heard sub f r sub') (hsound : sub.Sound) : sub'.Sound where
  going := h.stopped.trans hsound.going
  rows o st' hst' := by
    rcases h.handles hst' with ⟨st, hst, hwriter⟩ | ⟨_, _, _, _, _, -, hset⟩
    · obtain ⟨cols, hcols⟩ := hsound.rows o st hst
      rw [hwriter]
      exact h.row hcols
    · obtain ⟨cols, hcols, -⟩ := hset.row.row
      exact ⟨cols, hcols⟩

end Heard

/-! ## The copy mirrors the voices -/

/-- The row of a source has the identity that its voice said last. -/
structure Matches (v : Voice) (cols : SourceCols) : Prop where
  labels : cols.identity.labels = v.labels
  metadata : Agree cols.identity.metadata v.metadata

/-- Each source of the connection has a row of its own in the copy, which has the identity that
the source's voice said last. -/
structure Mirrors (vs : List Voice) (sub : Subscriber) : Prop where
  sound : sub.Sound
  rows : ∀ (o : UInt32) (v : Voice), vs[o.toNat]? = some v → ∃ st cols,
    sub.sources.get? o = some st ∧ sub.thread.db.sources.get? st.writer = some cols ∧ Matches v cols
  introduced : ∀ o st, sub.sources.get? o = some st → o.toNat < vs.length
  apart : ∀ o o' st st', sub.sources.get? o = some st → sub.sources.get? o' = some st' → o ≠ o' →
    st.writer ≠ st'.writer

theorem mirrors_new (thread : WriterState) : Mirrors [] (Subscriber.new thread) where
  sound := Subscriber.sound_new thread
  rows o v h := absurd h (by simp)
  introduced o st h := absurd h (by simp [Subscriber.new])
  apart o o' st st' h _ _ := absurd h (by simp [Subscriber.new])

section Mirrors

variable {vs vs' : List Voice} {sub sub' : Subscriber} {f : Frame} {r : Outcome Error Applied}

theorem converseOne_handshake {o : UInt32} {u : Option String} {l m : StringMap} {a : Int64}
    {c : Bool} (h : converseOne vs (.handshake o u l m a c) = some vs') :
    o.toNat = vs.length ∧ vs' = vs ++ [.start l m] := by
  unfold converseOne at h
  dsimp only at h
  split at h
  · rename_i hlen
    exact ⟨hlen, (Option.some.inj h).symm⟩
  · exact absurd h (by simp)

/-- A frame in turn that is no handshake changes the voice of its own source. -/
theorem converseOne_say (hf : ∀ o u l m a c, f ≠ .handshake o u l m a c)
    (h : converseOne vs f = some vs') : ∃ v v', vs[f.source.toNat]? = some v ∧ v.say f = some v' ∧
      vs' = vs.set f.source.toNat v' := by
  have hsay : sayAt vs f = some vs' := by
    cases f with
    | handshake => exact absurd rfl (hf _ _ _ _ _ _)
    | _ => exact h
  unfold sayAt at hsay
  simp only [Option.bind_eq_bind, Option.bind_eq_some_iff] at hsay
  obtain ⟨v, hv, v', hv', h⟩ := hsay
  exact ⟨v, v', hv, hv', (Option.some.inj h).symm⟩

/-- A handshake in turn adds a source, with a row of its own. -/
theorem mirrors_handshake {o : UInt32} {u : Option String} {l m : StringMap} {a : Int64} {c : Bool}
    (h : Mirrors vs sub) (hone : converseOne vs (.handshake o u l m a c) = some vs')
    (hheard : Heard sub (.handshake o u l m a c) r sub') : Mirrors vs' sub' := by
  obtain ⟨ho, rfl⟩ := converseOne_handshake hone
  have hsound := hheard.sound h.sound
  cases hheard with
  | unknown hnot _ => exact absurd rfl (hnot _ _ _ _ _ _)
  | @handshake _ _ _ _ _ _ thread hset =>
      have hold : ∀ o' st, sub.sources.get? o' = some st → o' ≠ o := by
        rintro o' st hst rfl
        have := h.introduced o' st hst
        omega
      have hget : ∀ o', o' ≠ o → (sub.sources.insert o
          (.start sub.thread.db.nextSourceId c)).get? o' = sub.sources.get? o' :=
        fun o' hne => OrdMap.get?_insert_ne _ _ hne
      -- an old handle is of an old row
      have hwriter : ∀ o' st, sub.sources.get? o' = some st →
          st.writer ≠ sub.thread.db.nextSourceId := by
        intro o' st hst heq
        obtain ⟨cols, hcols⟩ := h.sound.rows o' st hst
        rw [heq, sub.thread.db.nextSourceId_fresh] at hcols
        exact absurd hcols (by simp)
      refine ⟨hsound, fun o' v hv => ?_, fun o' st hst => ?_, fun o₁ o₂ st₁ st₂ h₁ h₂ hne => ?_⟩
      · by_cases hlt : o'.toNat < vs.length
        · rw [List.getElem?_append_left hlt] at hv
          obtain ⟨st, cols, hst, hcols, hmatches⟩ := h.rows o' v hv
          refine ⟨st, cols, ?_, ?_, hmatches⟩
          · exact (hget o' (hold o' st hst)).trans hst
          · exact (hset.row.others st.writer (hwriter o' st hst)).trans hcols
        · have hnew : o' = o := by
            have hbound := (List.getElem?_eq_some_iff.mp hv).1
            rw [List.length_append, List.length_singleton] at hbound
            exact UInt32.toNat_inj.mp (by omega)
          subst hnew
          rw [ho, List.getElem?_append_right (Nat.le_refl _), Nat.sub_self] at hv
          obtain rfl := Option.some.inj hv
          obtain ⟨cols, hcols, hseeded⟩ := hset.row.row
          exact ⟨_, cols, OrdMap.get?_insert_self _ _ _, hcols, hseeded.labels, hseeded.metadata⟩
      · rw [List.length_append, List.length_singleton]
        by_cases hat : o' = o
        · rw [hat, ho]
          omega
        · have := h.introduced o' st ((hget o' hat).symm.trans hst)
          omega
      · by_cases hat₁ : o₁ = o
        · have hat₂ : o₂ ≠ o := fun heq => hne (hat₁.trans heq.symm)
          have hst₂ := (hget o₂ hat₂).symm.trans h₂
          subst hat₁
          have hst₁ : some (SourceState.start sub.thread.db.nextSourceId c) = some st₁ :=
            (OrdMap.get?_insert_self _ _ _).symm.trans h₁
          obtain rfl := Option.some.inj hst₁
          exact Ne.symm (hwriter o₂ st₂ hst₂)
        · have hst₁ := (hget o₁ hat₁).symm.trans h₁
          by_cases hat₂ : o₂ = o
          · subst hat₂
            have hst₂ : some (SourceState.start sub.thread.db.nextSourceId c) = some st₂ :=
              (OrdMap.get?_insert_self _ _ _).symm.trans h₂
            obtain rfl := Option.some.inj hst₂
            exact hwriter o₁ st₁ hst₁
          · exact h.apart o₁ o₂ st₁ st₂ hst₁ ((hget o₂ hat₂).symm.trans h₂) hne

/-- A frame that introduces no source: the mirror stands if each row follows its voice. -/
theorem Mirrors.follow (h : Mirrors vs sub) (hsound : sub'.Sound)
    (hwriters : ∀ o, (sub'.sources.get? o).map (·.writer) = (sub.sources.get? o).map (·.writer))
    (hlen : vs'.length = vs.length)
    (hrows : ∀ (o : UInt32) (st : SourceState) (cols : SourceCols) (v v' : Voice),
      vs[o.toNat]? = some v → vs'[o.toNat]? = some v' → sub.sources.get? o = some st →
      sub.thread.db.sources.get? st.writer = some cols → Matches v cols →
      ∃ cols', sub'.thread.db.sources.get? st.writer = some cols' ∧ Matches v' cols') :
    Mirrors vs' sub' := by
  have hold : ∀ o st', sub'.sources.get? o = some st' →
      ∃ st, sub.sources.get? o = some st ∧ st.writer = st'.writer := by
    intro o st' hst'
    have hsame := hwriters o
    rwa [hst', Option.map_some, eq_comm, Option.map_eq_some_iff] at hsame
  refine ⟨hsound, fun o v' hv' => ?_, fun o st' hst' => ?_, fun o₁ o₂ st₁ st₂ h₁ h₂ hne => ?_⟩
  · have hbound : o.toNat < vs.length := hlen ▸ (List.getElem?_eq_some_iff.mp hv').1
    have hv := List.getElem?_eq_getElem hbound
    obtain ⟨st, cols, hst, hcols, hmatches⟩ := h.rows o _ hv
    have hsame := hwriters o
    rw [hst, Option.map_some, Option.map_eq_some_iff] at hsame
    obtain ⟨st', hst', hwriter⟩ := hsame
    obtain ⟨cols', hcols', hmatches'⟩ := hrows o st cols _ v' hv hv' hst hcols hmatches
    exact ⟨st', cols', hst', by rw [hwriter, hcols'], hmatches'⟩
  · obtain ⟨st, hst, -⟩ := hold o st' hst'
    rw [hlen]
    exact h.introduced o st hst
  · obtain ⟨st, hst, hwriter⟩ := hold o₁ st₁ h₁
    obtain ⟨st', hst', hwriter'⟩ := hold o₂ st₂ h₂
    rw [← hwriter, ← hwriter']
    exact h.apart o₁ o₂ st st' hst hst' hne

/-- A change of identity reaches the row of its source, and no other. -/
theorem mirrors_update {o : UInt32} {ts : Int64} {l m : StringMap} (h : Mirrors vs sub)
    (hone : converseOne vs (.sourceUpdate o ts l m) = some vs')
    (hheard : Heard sub (.sourceUpdate o ts l m) r sub') : Mirrors vs' sub' := by
  obtain ⟨v, v', hv, hsay, hvs⟩ := converseOne_say (by simp) hone
  have hv : vs[o.toNat]? = some v := hv
  have hvs : vs' = vs.set o.toNat v' := hvs
  obtain rfl : { v with labels := l, metadata := m } = v' := Option.some.inj hsay
  refine h.follow (hheard.sound h.sound) (hheard.writers_same (by simp))
    (by rw [hvs, List.length_set]) fun o₁ st cols w w' hw hw' hst hcols hmatches => ?_
  obtain ⟨st₀, -, hst₀, -⟩ := h.rows o v hv
  cases hheard with
  | unknown _ hnone =>
      -- its handshake was heard
      have hnone : sub.sources.get? o = none := hnone
      rw [hst₀] at hnone
      exact absurd hnone (by simp)
  | @sourceUpdate _ _ _ _ st₁ old thread hst₁ hold hset =>
      rw [hst₀] at hst₁
      obtain rfl := Option.some.inj hst₁
      rw [hvs] at hw'
      by_cases ho : o₁ = o
      · subst ho
        rw [hst₀] at hst
        obtain rfl := Option.some.inj hst
        rw [List.getElem?_set_self (List.getElem?_eq_some_iff.mp hv).1] at hw'
        obtain rfl := Option.some.inj hw'
        obtain ⟨cols', hcols', hrenamed⟩ := hset.row.row
        exact ⟨cols', hcols', hrenamed.labels, hrenamed.metadata⟩
      · have hne : o.toNat ≠ o₁.toNat := fun heq => ho (UInt32.toNat_inj.mp heq.symm)
        rw [List.getElem?_set_ne hne, hw] at hw'
        obtain rfl := Option.some.inj hw'
        have hother := hset.row.others st.writer (h.apart o₁ o st st₀ hst hst₀ ho)
        exact ⟨cols, hother.trans hcols, hmatches⟩

/-- What a voice says is its identity only in a change of it. -/
theorem say_identity {v v' : Voice} (hupdate : ∀ o ts l m, f ≠ .sourceUpdate o ts l m)
    (h : v.say f = some v') : v'.labels = v.labels ∧ v'.metadata = v.metadata := by
  cases f with
  | handshake => exact absurd h (by simp [Voice.say])
  | sourceUpdate => exact absurd rfl (hupdate _ _ _ _)
  | index =>
      obtain ⟨-, h⟩ := Option.ite_none_right_eq_some.mp h
      rw [← Option.some.inj h]
      exact ⟨rfl, rfl⟩
  | rows =>
      obtain ⟨-, h⟩ := Option.ite_none_right_eq_some.mp h
      rw [← Option.some.inj h]
      exact ⟨rfl, rfl⟩
  | segment =>
      rw [← Option.some.inj h]
      exact ⟨rfl, rfl⟩
  | clockOffset =>
      rw [← Option.some.inj h]
      exact ⟨rfl, rfl⟩

/-- No other frame changes an identity, and none of them moves a row. -/
theorem mirrors_other (hhand : ∀ o u l m a c, f ≠ .handshake o u l m a c)
    (hupdate : ∀ o ts l m, f ≠ .sourceUpdate o ts l m) (h : Mirrors vs sub)
    (hone : converseOne vs f = some vs') (hheard : Heard sub f r sub') : Mirrors vs' sub' := by
  obtain ⟨v, v', hv, hsay, rfl⟩ := converseOne_say hhand hone
  obtain ⟨hlabels, hmetadata⟩ := say_identity hupdate hsay
  refine h.follow (hheard.sound h.sound) (hheard.writers_same hhand) (by rw [List.length_set])
    fun o st cols w w' hw hw' hst hcols hmatches => ?_
  have hsame : w'.labels = w.labels ∧ w'.metadata = w.metadata := by
    by_cases ho : f.source.toNat = o.toNat
    · rw [ho, List.getElem?_set_self (List.getElem?_eq_some_iff.mp hw).1] at hw'
      rw [ho, hw] at hv
      obtain rfl := Option.some.inj hv
      obtain rfl := Option.some.inj hw'
      exact ⟨hlabels, hmetadata⟩
    · rw [List.getElem?_set_ne ho, hw] at hw'
      obtain rfl := Option.some.inj hw'
      exact ⟨rfl, rfl⟩
  refine ⟨cols, by rw [hheard.sources_same hhand hupdate, hcols], ?_, ?_⟩
  · rw [hsame.1]
    exact hmatches.labels
  · rw [hsame.2]
    exact hmatches.metadata

/-- **One frame in turn keeps the mirror.** -/
theorem mirrors_step (h : Mirrors vs sub) (hone : converseOne vs f = some vs')
    (hheard : Heard sub f r sub') : Mirrors vs' sub' := by
  cases f with
  | handshake => exact mirrors_handshake h hone hheard
  | sourceUpdate => exact mirrors_update h hone hheard
  | _ => exact mirrors_other (by simp) (by simp) h hone hheard

/-- **A whole connection keeps it**, and on the way no entry that the copy's writer maintains is
lost. -/
theorem mirrors_run : ∀ {ds : List Delivery} {vs vs' : List Voice} {sub : Subscriber},
    Mirrors vs sub → (∀ d ∈ ds, d.faults = []) → converse vs (ds.map (·.frame)) = some vs' →
      Mirrors vs' (sub.deliverAll ds) ∧
        KeepsMaintained sub.thread.db (sub.deliverAll ds).thread.db
  | [], vs, vs', sub, h, _, hconverse => by
      obtain rfl := Option.some.inj hconverse
      exact ⟨h, .refl _⟩
  | d :: ds, vs, vs', sub, h, hfaults, hconverse => by
      obtain ⟨vs₁, hone, hrest⟩ := Option.bind_eq_some_iff.mp hconverse
      have hheard := apply_heard h.sound (hfaults d List.mem_cons_self)
      obtain ⟨hmirrors, hkept⟩ := mirrors_run (mirrors_step h hone hheard)
        (fun d' hd' => hfaults d' (List.mem_cons_of_mem _ hd')) hrest
      exact ⟨hmirrors, hheard.keepsMaintained.trans hkept⟩

end Mirrors

/-! ## Convergence -/

/-- A row of the copy has the identity of a source of the publisher's archive. -/
structure Copies (rec : SourceRow) (cols : SourceCols) : Prop where
  labels : cols.identity.labels = rec.identity.labels
  metadata : ∀ key, key ≠ keys.ENCODER → key ≠ keys.WRITER_SESSIONS →
    cols.identity.metadata.get? key = rec.identity.metadata.get? key

/-- **Identity converges.** After a connection of any number of calls, none of which failed,
over any history of the publisher's archive, and with every frame applied in order: each source
that the archive holds at the last call has a row of the copy, of its own, with its labels and
with its metadata but for the two keys that the copy's writer maintains; and no frame on the way
removed or replaced an entry at those two keys in any row of the copy. -/
theorem identity_converges {since : Option Int64} {batches : List (List Frame)} {db : Archive}
    {p : ArchivePublisher} (hp : Published since batches db p) (thread : WriterState)
    {ds : List Delivery} (hframes : ds.map (·.frame) = batches.flatten)
    (hfaults : ∀ d ∈ ds, d.faults = []) :
    (∀ rec ∈ db.readSources, ∃ c ∈ p.sources, c.source_id = rec.id ∧ ∃ st cols,
      ((Subscriber.new thread).deliverAll ds).sources.get? c.ordinal = some st ∧
      ((Subscriber.new thread).deliverAll ds).thread.db.sources.get? st.writer = some cols ∧
      Copies rec cols) ∧
    (∀ o o' st st', ((Subscriber.new thread).deliverAll ds).sources.get? o = some st →
      ((Subscriber.new thread).deliverAll ds).sources.get? o' = some st' → o ≠ o' →
        st.writer ≠ st'.writer) ∧
    ∀ before after, ds = before ++ after →
      KeepsMaintained ((Subscriber.new thread).deliverAll before).thread.db
        ((Subscriber.new thread).deliverAll ds).thread.db := by
  have hconn := published_connected hp
  have hheard : converse [] (ds.map (·.frame)) = some (voices p.sources) := by
    rw [hframes]
    exact hconn.heard
  obtain ⟨hmirrors, -⟩ := mirrors_run (mirrors_new thread) hfaults hheard
  refine ⟨fun rec hrec => ?_, hmirrors.apart, ?_⟩
  · obtain ⟨c, hc, hid⟩ := List.mem_map.mp (hconn.complete rec hrec)
    obtain ⟨i, hi⟩ := List.mem_iff_getElem?.mp hc
    have hvoice : (voices p.sources)[c.ordinal.toNat]? = some c.voice := by
      rw [hconn.ordered i c hi, voices, List.getElem?_map, hi]
      rfl
    obtain ⟨st, cols, hst, hcols, hmatches⟩ := hmirrors.rows c.ordinal c.voice hvoice
    have hfind : db.readSources.find? (·.id = c.source_id) = some rec := by
      rw [hid]
      exact find_readSources hrec
    obtain ⟨hlabels, hmetadata⟩ := hconn.current c hc rec hfind
    refine ⟨c, hc, hid, st, cols, hst, hcols, hmatches.labels.trans hlabels, ?_⟩
    intro key hencoder hsessions
    have hfree : key ∉ maintained := by
      unfold maintained
      simp [hencoder, hsessions]
    rw [← hmetadata]
    exact hmatches.metadata key hfree
  · rintro before after rfl
    rw [Subscriber.deliverAll_append]
    -- the rest of the connection, from where the first part left off
    rw [List.map_append] at hheard
    unfold converse at hheard
    rw [List.foldlM_append] at hheard
    obtain ⟨vs, hbefore, hafter⟩ := Option.bind_eq_some_iff.mp hheard
    have hmid := (mirrors_run (mirrors_new thread)
      (fun d hd => hfaults d (List.mem_append_left _ hd)) hbefore).1
    exact (mirrors_run hmid (fun d hd => hfaults d (List.mem_append_right _ hd)) hafter).2

/-- An archive with one source. -/
def labelled (labels : List (String × String)) : Archive :=
  (Archive.create .table).insertSource
    { labels := .ofList labels, metadata := .ofList [("note", "n")], clock_anchor_wall_ns := 0 } "u"

/-- A source that is opened and then relabelled: the call that polls it says so. -/
def relabelled : List (List Frame) :=
  [[.handshake 0 (some "u") (.ofList [("host", "a")]) (.ofList [("note", "n")]) 0 false],
    [.sourceUpdate 0 1 (.ofList [("host", "b")]) (.ofList [("note", "n")]),
      .rows 0 0 NO_INDEX_STATE []]]

theorem identity_converges_relabelled : ∃ p,
    Published none relabelled (labelled [("host", "b")]) p ∧
      ∀ rec ∈ (labelled [("host", "b")]).readSources, ∃ c ∈ p.sources, c.source_id = rec.id ∧
        ∃ st cols,
          ((Subscriber.new ⟨.create .table, .seed (.create .table)⟩).deliverAll
            (relabelled.flatten.map fun f => ⟨.idle, f, []⟩)).sources.get? c.ordinal = some st ∧
          ((Subscriber.new ⟨.create .table, .seed (.create .table)⟩).deliverAll
            (relabelled.flatten.map fun f => ⟨.idle, f, []⟩)).thread.db.sources.get? st.writer =
              some cols ∧ Copies rec cols := by
  obtain ⟨p, hp⟩ : ∃ p, Published none relabelled (labelled [("host", "b")]) p :=
    ⟨_, @Published.polled none _ (labelled [("host", "a")]) _ 1 _ _ _ [] []
      (@Published.opened none _ _ _ [] [] rfl) rfl⟩
  refine ⟨p, hp, (identity_converges hp _ ?_ ?_).1⟩
  · rw [List.map_map]
    exact List.map_id' _
  · intro d hd
    obtain ⟨f, -, rfl⟩ := List.mem_map.mp hd
    rfl

end Dendro.Replicate
