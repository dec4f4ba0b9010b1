import Mathlib.Algebra.BigOperators.Group.List.Basic
import Dendro.Seal.Stagger

/-!
# The account of an open segment

`SegmentAccount` is what the seal decision knows of the rows of an open segment: how many there
are, their bytes, and the aligned buckets of the first and of the newest one (`Accounts`).

Two buckets are enough to tell that the segment holds more than one as long as the rows move on.
A row that falls back into the first row's bucket is the newest one: the two buckets that are kept
are the same again, and the crossing is forgotten until a cap is reached (`crossing_due_iff`).

Row counts and caps are natural numbers: an account is given far fewer than `2^64` rows. The bytes
are the caller's, and their sum wraps. Instants and durations are nanoseconds.
-/

namespace Dendro

structure SealPolicy where
  max_bytes : Nat
  max_rows : Nat
  max_age : Nat
  /-- No alignment when it is not positive. -/
  align : Option Int64

structure SegmentAccount where
  align : Option Int64
  /-- The aligned bucket that the open segment's first row fell in. -/
  first_bucket : Option Int
  last_bucket : Option Int
  rows : Nat
  approx_bytes : UInt64
  opened_at : Nat
  max_bytes : Nat
  max_rows : Nat
  max_age : Nat

namespace SegmentAccount

/-- Open a stream's first segment, its caps reduced by up to a half. -/
def openFirst (stream source_key : String) (policy : SealPolicy) (now : Nat) : SegmentAccount :=
  let bucket := (staggerBucket stream source_key).toNat
  let row_offset := policy.max_rows / (2 * STAGGER_BUCKETS.toNat) * bucket
  let age_offset := policy.max_age / (2 * STAGGER_BUCKETS.toNat) * bucket
  let byte_offset := policy.max_bytes / (2 * STAGGER_BUCKETS.toNat) * bucket
  { align := policy.align, first_bucket := none, last_bucket := none
    rows := 0, approx_bytes := 0, opened_at := now
    max_bytes := max (policy.max_bytes - byte_offset) 1
    max_rows := max (policy.max_rows - row_offset) 1
    max_age := policy.max_age - age_offset }

/-- Which aligned bucket a timestamp falls in: a division that rounds down, also below zero. -/
def bucketOf (acct : SegmentAccount) (ts : Int64) : Option Int :=
  (acct.align.filter (0 < ·)).map fun a => ts.toInt / a.toInt

/-- Account one appended row. -/
def addRow (acct : SegmentAccount) (bytes : UInt64) (ts : Int64) : SegmentAccount :=
  let acct := { acct with rows := acct.rows + 1, approx_bytes := acct.approx_bytes + bytes }
  match acct.bucketOf ts with
  | some bucket =>
    { acct with first_bucket := acct.first_bucket.or (some bucket), last_bucket := some bucket }
  | none => acct

/-- Whether a row at `ts` would belong to another bucket than the open segment's first. -/
def startsNewBucket (acct : SegmentAccount) (ts : Int64) : Bool :=
  match acct.bucketOf ts, acct.first_bucket with
  | some next, some first => next ≠ first
  | _, _ => false

/-- Whether the open segment is past any threshold. -/
def isDue (acct : SegmentAccount) (now : Nat) : Bool :=
  acct.rows > 0 && (acct.approx_bytes.toNat ≥ acct.max_bytes || acct.rows ≥ acct.max_rows ||
    now - acct.opened_at ≥ acct.max_age || acct.first_bucket ≠ acct.last_bucket)

/-- Reset onto a fresh segment after a seal. -/
def rotate (acct : SegmentAccount) (policy : SealPolicy) (now : Nat) : SegmentAccount :=
  { acct with
    rows := 0, approx_bytes := 0, opened_at := now, align := policy.align
    first_bucket := none, last_bucket := none
    max_bytes := policy.max_bytes, max_rows := policy.max_rows, max_age := policy.max_age }

end SegmentAccount

/-! ## Every account -/

/-- A row as the account is told of it. -/
structure RowCharge where
  bytes : UInt64
  ts : Int64
  deriving DecidableEq

/-- What a caller does with an account. -/
inductive SealEvent where
  | add (row : RowCharge)
  | rotate (policy : SealPolicy) (now : Nat)

namespace SegmentAccount

def step (acct : SegmentAccount) : SealEvent → SegmentAccount
  | .add row => acct.addRow row.bytes row.ts
  | .rotate policy now => acct.rotate policy now

def run (acct : SegmentAccount) (events : List SealEvent) : SegmentAccount :=
  events.foldl step acct

end SegmentAccount

/-- The rows added since the account was opened or last rotated. -/
def openRows (events : List SealEvent) : List RowCharge :=
  events.foldl (fun rows e => match e with
    | .add row => rows ++ [row]
    | .rotate .. => []) []

open SegmentAccount

variable {acct : SegmentAccount} {rows : List RowCharge}

/-- The bytes that the rows were charged with, as the account adds them up. -/
def totalBytes (rows : List RowCharge) : UInt64 := (rows.map RowCharge.bytes).sum

/-- What an account knows of the rows of its segment. -/
structure Accounts (acct : SegmentAccount) (rows : List RowCharge) : Prop where
  count : acct.rows = rows.length
  bytes : acct.approx_bytes = totalBytes rows
  first : acct.first_bucket = rows.head?.bind fun row => acct.bucketOf row.ts
  last : acct.last_bucket = rows.getLast?.bind fun row => acct.bucketOf row.ts

theorem accounts_openFirst (stream source_key : String) (policy : SealPolicy) (now : Nat) :
    Accounts (openFirst stream source_key policy now) [] := ⟨rfl, rfl, rfl, rfl⟩

theorem accounts_rotate (policy : SealPolicy) (now : Nat) :
    Accounts (acct.rotate policy now) [] := ⟨rfl, rfl, rfl, rfl⟩

theorem bucketOf_addRow (bytes : UInt64) (ts ts' : Int64) :
    (acct.addRow bytes ts).bucketOf ts' = acct.bucketOf ts' := by
  unfold addRow
  dsimp only
  split <;> rfl

/-- A bucket is one for every timestamp or for none. -/
theorem bucketOf_none {ts : Int64} (h : acct.bucketOf ts = none) (ts' : Int64) :
    acct.bucketOf ts' = none := by
  rw [bucketOf, Option.map_eq_none_iff] at h ⊢
  exact h

theorem Accounts.addRow (h : Accounts acct rows) (row : RowCharge) :
    Accounts (acct.addRow row.bytes row.ts) (rows ++ [row]) := by
  have hbuckets : (fun r : RowCharge => (acct.addRow row.bytes row.ts).bucketOf r.ts) =
      fun r => acct.bucketOf r.ts := funext fun r => bucketOf_addRow _ _ _
  refine ⟨?_, ?_, ?_, ?_⟩
  · have hcount : (acct.addRow row.bytes row.ts).rows = acct.rows + 1 := by
      unfold SegmentAccount.addRow
      dsimp only
      split <;> rfl
    rw [hcount, h.count, List.length_append]
    rfl
  · have hsum : (acct.addRow row.bytes row.ts).approx_bytes = acct.approx_bytes + row.bytes := by
      unfold SegmentAccount.addRow
      dsimp only
      split <;> rfl
    rw [hsum, h.bytes, totalBytes, totalBytes, List.map_append, List.sum_append]
    simp
  · have hfirst : (acct.addRow row.bytes row.ts).first_bucket =
        acct.first_bucket.or (acct.bucketOf row.ts) := by
      unfold SegmentAccount.addRow
      dsimp only
      split
      · rename_i bucket hbucket
        have hb : acct.bucketOf row.ts = some bucket := hbucket
        rw [hb]
      · rename_i hbucket
        have hb : acct.bucketOf row.ts = none := hbucket
        rw [hb, Option.or_none]
    rw [hfirst, h.first, hbuckets, List.head?_append]
    cases hr : rows.head? with
    | none => rfl
    | some first =>
        cases hb : acct.bucketOf first.ts with
        | none =>
            have hnone := bucketOf_none hb row.ts
            simp [hb, hnone]
        | some bucket => simp [hb]
  · have hlast : (acct.addRow row.bytes row.ts).last_bucket =
        (acct.bucketOf row.ts).or acct.last_bucket := by
      unfold SegmentAccount.addRow
      dsimp only
      split
      · rename_i bucket hbucket
        have hb : acct.bucketOf row.ts = some bucket := hbucket
        rw [hb]
        rfl
      · rename_i hbucket
        have hb : acct.bucketOf row.ts = none := hbucket
        rw [hb]
        rfl
    rw [hlast, hbuckets, List.getLast?_concat, h.last]
    cases hb : acct.bucketOf row.ts with
    | none =>
        cases hr : rows.getLast? with
        | none => simp [hb]
        | some last =>
            have hnone := bucketOf_none hb last.ts
            simp [hb, hnone]
    | some bucket => simp [hb]

/-- **In every run the account knows the rows since the last rotation.** -/
theorem accounts_run (stream source_key : String) (policy : SealPolicy) (now : Nat)
    (events : List SealEvent) :
    Accounts ((openFirst stream source_key policy now).run events) (openRows events) := by
  suffices ∀ (acct : SegmentAccount) (rows : List RowCharge), Accounts acct rows →
      Accounts (acct.run events) (events.foldl (fun rows e => match e with
        | .add row => rows ++ [row]
        | .rotate .. => []) rows) from
    this _ _ (accounts_openFirst stream source_key policy now)
  induction events with
  | nil => exact fun _ _ h => h
  | cons e events ih =>
      intro acct rows h
      cases e with
      | add row => exact ih _ _ (h.addRow row)
      | rotate policy now => exact ih _ _ (@accounts_rotate acct policy now)

/-! ## Crossings -/

/-- Two of the rows fall in different aligned buckets. -/
def Crosses (acct : SegmentAccount) (rows : List RowCharge) : Prop :=
  ∃ r ∈ rows, ∃ r' ∈ rows, acct.bucketOf r.ts ≠ acct.bucketOf r'.ts

/-- The newest row is in another bucket than the first. -/
def AwayFromFirst (acct : SegmentAccount) (rows : List RowCharge) : Prop :=
  (rows.head?.bind fun row => acct.bucketOf row.ts) ≠
    rows.getLast?.bind fun row => acct.bucketOf row.ts

/-- The rows reach a cap, whatever the time. -/
def Capped (acct : SegmentAccount) (rows : List RowCharge) : Prop :=
  acct.max_rows ≤ rows.length ∨ acct.max_bytes ≤ (totalBytes rows).toNat ∨ acct.max_age = 0

theorem isDue_iff (h : Accounts acct rows) (hrows : rows ≠ []) :
    (∀ now, acct.isDue now = true) ↔ AwayFromFirst acct rows ∨ Capped acct rows := by
  have hpos : 0 < rows.length := List.length_pos_iff.mpr hrows
  unfold isDue AwayFromFirst Capped
  rw [h.count, h.bytes, h.first, h.last]
  constructor
  · intro hdue
    -- at the instant it was opened the age says nothing
    have hnow := hdue acct.opened_at
    simp only [Nat.sub_self, Bool.and_eq_true, Bool.or_eq_true, decide_eq_true_eq, ge_iff_le,
      gt_iff_lt, ne_eq, Nat.le_zero] at hnow
    tauto
  · intro hdue now
    have hage : acct.max_age = 0 → acct.max_age ≤ now - acct.opened_at := fun h0 => by omega
    simp only [Bool.and_eq_true, Bool.or_eq_true, decide_eq_true_eq, ge_iff_le, gt_iff_lt, ne_eq]
    tauto

/-- **A crossing makes the segment due at every time from then on exactly where no row falls back
into the first row's bucket before a cap is reached.** Every state that a run reaches is the last
one of a run, so this is about every later time as well. -/
theorem crossing_due_iff (stream source_key : String) (policy : SealPolicy) (opened : Nat)
    (events : List SealEvent) :
    let acct := (openFirst stream source_key policy opened).run events
    (Crosses acct (openRows events) → ∀ now, acct.isDue now = true) ↔
      (Crosses acct (openRows events) →
        AwayFromFirst acct (openRows events) ∨ Capped acct (openRows events)) := by
  intro acct
  have haccounts : Accounts acct (openRows events) :=
    accounts_run stream source_key policy opened events
  refine forall_congr' fun hcrosses => isDue_iff haccounts fun hnil => ?_
  obtain ⟨r, hr, -⟩ := hcrosses
  rw [hnil] at hr
  exact absurd hr List.not_mem_nil

/-- Rows at 5, 15 and 7 under an alignment of 10: the segment holds two buckets and is not due. -/
theorem crossing_forgotten :
    let policy : SealPolicy :=
      { max_bytes := 8388608, max_rows := 900, max_age := 300000000000, align := some 10 }
    let events := [.add ⟨1, 5⟩, .add ⟨1, 15⟩, .add ⟨1, 7⟩]
    let acct := (openFirst "cpu" "" policy 0).run events
    Crosses acct (openRows events) ∧ acct.isDue 0 = false := by
  refine ⟨⟨⟨1, 5⟩, ?_, ⟨1, 15⟩, ?_, ?_⟩, ?_⟩
  · decide
  · decide
  · decide
  · decide +kernel

/-- **Rows in the order of their time never forget a crossing.** -/
theorem awayFromFirst_of_ordered (hcrosses : Crosses acct rows)
    (hordered : rows.Pairwise fun r r' => r.ts ≤ r'.ts) : AwayFromFirst acct rows := by
  obtain ⟨r, hr, r', hr', hne⟩ := hcrosses
  rcases ha : acct.align.filter (0 < ·) with _ | a
  · exact absurd (by simp [bucketOf, ha]) hne
  have hpos : 0 < a.toInt := by
    obtain ⟨-, hpos⟩ := Option.filter_eq_some_iff.mp ha
    exact Int64.lt_iff_toInt_lt.mp (by simpa using hpos)
  have hbucket : ∀ ts, acct.bucketOf ts = some (ts.toInt / a.toInt) := fun ts => by
    rw [bucketOf, ha, Option.map_some]
  have hne_nil : rows ≠ [] := List.ne_nil_of_mem hr
  rw [AwayFromFirst, List.head?_eq_some_head hne_nil, List.getLast?_eq_some_getLast hne_nil,
    Option.bind_some, Option.bind_some, hbucket, hbucket]
  intro heq
  have hends := Option.some.inj heq
  -- between the first row and the newest all rows are in one bucket then
  have hone : ∀ x ∈ rows, x.ts.toInt / a.toInt = (rows.head hne_nil).ts.toInt / a.toInt := by
    intro x hx
    have hfirst : (rows.head hne_nil).ts ≤ x.ts := by
      obtain ⟨first, rest, rfl⟩ := List.exists_cons_of_ne_nil hne_nil
      rcases List.mem_cons.mp hx with rfl | hx
      · exact Int64.le_refl _
      · exact (List.pairwise_cons.mp hordered).1 x hx
    have hlast : x.ts ≤ (rows.getLast hne_nil).ts := by
      rw [← List.dropLast_append_getLast hne_nil] at hordered hx
      rcases List.mem_append.mp hx with hx | hx
      · exact (List.pairwise_append.mp hordered).2.2 x hx _ (by simp)
      · rw [List.mem_singleton.mp hx]
    have hlow := Int.ediv_le_ediv hpos (Int64.le_iff_toInt_le.mp hfirst)
    have hhigh := Int.ediv_le_ediv hpos (Int64.le_iff_toInt_le.mp hlast)
    omega
  rw [hbucket, hbucket, hone r hr, hone r' hr'] at hne
  exact hne rfl

/-- A caller that seals first whenever a row would start a new bucket never has two in a segment. -/
theorem not_crosses_addRow (h : Accounts acct rows) (hone : ¬ Crosses acct rows) (row : RowCharge)
    (hasked : acct.startsNewBucket row.ts = false) :
    ¬ Crosses (acct.addRow row.bytes row.ts) (rows ++ [row]) := by
  rintro ⟨r, hr, r', hr', hne⟩
  rw [bucketOf_addRow, bucketOf_addRow] at hne
  have hall : ∀ x ∈ rows ++ [row],
      acct.bucketOf x.ts = acct.bucketOf ((rows ++ [row]).head (by simp)).ts := by
    intro x hx
    rcases rows with _ | ⟨first, rest⟩
    · rw [List.mem_singleton.mp hx]
      rfl
    · rcases List.mem_append.mp hx with hx | hx
      · by_contra hdiff
        exact hone ⟨x, hx, first, by simp, hdiff⟩
      · rw [List.mem_singleton.mp hx]
        have hfirst : acct.first_bucket = acct.bucketOf first.ts := h.first
        unfold startsNewBucket at hasked
        rw [hfirst] at hasked
        rcases hb : acct.bucketOf row.ts with _ | next
        · exact (bucketOf_none hb _).symm
        · rcases hf : acct.bucketOf first.ts with _ | bucket
          · rw [bucketOf_none hf row.ts] at hb
            simp at hb
          · rw [hb, hf] at hasked
            have heq : next = bucket := by simpa using hasked
            simpa [heq] using hf.symm
  exact hne ((hall r hr).trans (hall r' hr').symm)

end Dendro
