import Dendro.Replicate.Protocol

/-!
# Connections

What a publisher returns over an opening and any number of calls, none of which failed, each of
them reading the archive as it stands then. Between two calls the archive may change in any
way.
-/

namespace Dendro.Replicate

open Dendro

/-- The batches that a publisher returned so far, oldest first, with the archive its last call
read and what it remembers now. -/
inductive Published (since : Option Int64) : List (List Frame) → Archive → ArchivePublisher → Prop where
  | opened {db : Archive} {p : ArchivePublisher} {frames : List Frame}
      {faults faults' : List (Fault StorageFailure)} :
      ArchivePublisher.open_ db since (.unopened since) faults = (.ok frames, p, faults') →
      Published since [frames] db p
  | polled {batches : List (List Frame)} {db₀ db : Archive} {now : Int64} {p p' : ArchivePublisher}
      {frames : List Frame} {faults faults' : List (Fault StorageFailure)} :
      Published since batches db₀ p →
      ArchivePublisher.next db now p faults = (.ok frames, p', faults') →
      Published since (batches ++ [frames]) db p'

/-- A call's frames fall into one chunk for each of the first `n` sources. -/
def Chunked (P : List Frame → Prop) (n : Nat) (frames : List Frame) : Prop :=
  ∃ chunks, frames = chunks.flatten ∧ Chunks P 0 chunks ∧ chunks.length = n

/-- What the batches of a connection are: each falls into a chunk for each source known by its
end, and every chunk of a poll ends in the one `rows` frame of its source. -/
inductive Batched : List (List Frame) → Nat → Prop where
  | opened {frames : List Frame} {n : Nat} : Chunked NoRows n frames → Batched [frames] n
  | polled {batches : List (List Frame)} {frames : List Frame} {m n : Nat} : Batched batches m →
      m ≤ n → Chunked EndsInRows n frames → Batched (batches ++ [frames]) n

/-- What holds after every call of a connection. -/
structure Connected (batches : List (List Frame)) (db : Archive) (p : ArchivePublisher) : Prop where
  ordered : Ordered p.sources
  /-- Every frame was in turn, and the cursors are the voices left. -/
  heard : converse [] batches.flatten = some (voices p.sources)
  current : ∀ c ∈ p.sources, Current db.readSources c
  nodup : (sourceIds p.sources).Nodup
  complete : ∀ rec ∈ db.readSources, rec.id ∈ sourceIds p.sources
  batched : Batched batches p.sources.length

theorem nodup_readSources (db : Archive) : (db.readSources.map (·.id)).Nodup := by
  have hids : db.readSources.map (·.id) = db.sources.keys := by
    unfold Archive.readSources OrdMap.keys
    rw [List.map_map]
    rfl
  rw [hids]
  exact db.sources.keys_nodup

theorem mem_unknown {known : List SourceCursor} {records : List SourceRow} {rec : SourceRow} :
    rec ∈ unknown known records ↔ rec ∈ records ∧ rec.id ∉ sourceIds known := by
  unfold unknown sourceIds
  rw [List.mem_filter]
  simp

/-- **Every connection keeps to the protocol.** -/
theorem published_connected {since : Option Int64} {batches : List (List Frame)} {db : Archive}
    {p : ArchivePublisher} (h : Published since batches db p) : Connected batches db p := by
  induction h with
  | @opened db p frames faults faults' hopen =>
      obtain ⟨hcoll, hids⟩ := open_ok hopen
      obtain ⟨chunks, hframes, hchunks, hlen⟩ := hcoll.chunks
      refine ⟨hcoll.ordered, ?_, hcoll.current, ?_, fun rec hrec => ?_,
        .opened ⟨chunks, hframes, hchunks, hlen⟩⟩
      · rw [List.flatten_singleton]
        exact hcoll.heard
      · rw [hids]
        exact nodup_readSources db
      · rw [hids]
        exact List.mem_map.mpr ⟨rec, hrec, rfl⟩
  | @polled batches db₀ db now p p' frames faults faults' hp hnext ih =>
      obtain ⟨hcoll, hids⟩ := next_ok ih.ordered hnext
      obtain ⟨chunks, hframes, hchunks, hlen⟩ := hcoll.chunks
      have hmore : p.sources.length ≤ p'.sources.length := by
        have := congrArg List.length hids
        unfold sourceIds at this
        rw [List.length_append, List.length_map, List.length_map] at this
        omega
      refine ⟨hcoll.ordered, ?_, hcoll.current, ?_, fun rec hrec => ?_,
        .polled ih.batched hmore ⟨chunks, hframes, hchunks, hlen⟩⟩
      · rw [List.flatten_append, List.flatten_singleton]
        exact converse_append ih.heard hcoll.heard
      · rw [hids]
        refine List.nodup_append.mpr ⟨ih.nodup, ?_, ?_⟩
        · exact (List.filter_sublist.map _).nodup (nodup_readSources db)
        · rintro id hid _ hnew rfl
          obtain ⟨rec, hrec, rfl⟩ := List.mem_map.mp hnew
          exact (mem_unknown.mp hrec).2 hid
      · rw [hids]
        by_cases hknown : rec.id ∈ sourceIds p.sources
        · exact List.mem_append_left _ hknown
        · exact List.mem_append_right _
            (List.mem_map.mpr ⟨rec, mem_unknown.mpr ⟨hrec, hknown⟩, rfl⟩)

end Dendro.Replicate
