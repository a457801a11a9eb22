import NpmFollower.Library.FiniteMap
import NpmFollower.Library.KeysetPages
import NpmFollower.Library.Upserts

/-! # The table of computed diffs

A row of `diff_analysis` holds what came of comparing the tarballs of two versions.
A pair of versions has one row: a later result takes the place of an earlier one.
-/

namespace NpmFollower.PostgresDb

open Std

structure FileDiff where
  added : ℕ
  removed : ℕ
  totalOld : Option ℕ
  totalNew : Option ℕ
  /-- The bits of a double. -/
  averageWidth : UInt64
deriving DecidableEq

inductive DiffAnalysisJobResult where
  | diff (files : ExtTreeMap String FileDiff compare)
  | errTooManyFiles (old new : ℕ)
  | errUnParseable
  | errClient (stderr : String)

structure DiffAnalysis where
  fromId : ℤ
  toId : ℤ
  jobResult : DiffAnalysisJobResult

namespace DiffAnalysis

/-- The primary key. -/
def pair (d : DiffAnalysis) : ℤ × ℤ := (d.fromId, d.toId)

/-- Postgres refuses a batch that would write a row twice. -/
def insertBatchDiffAnalysis (diffs table : List DiffAnalysis) : Option (List DiffAnalysis) :=
  if (diffs.map pair).Nodup then some (diffs.foldl (Rows.upsert pair) table) else none

/-- The condition on the rows behind the last one of a page. -/
def Behind (last : ℤ × ℤ) (d : DiffAnalysis) : Prop :=
  last.1 < d.fromId ∨ d.fromId = last.1 ∧ last.2 < d.toId

/-- `ORDER BY from_id, to_id`. -/
def Ordered (d e : DiffAnalysis) : Prop :=
  d.fromId < e.fromId ∨ d.fromId = e.fromId ∧ d.toId ≤ e.toId

instance (last : ℤ × ℤ) (d : DiffAnalysis) : Decidable (Behind last d) :=
  inferInstanceAs (Decidable (_ ∨ _))

instance (d e : DiffAnalysis) : Decidable (Ordered d e) := inferInstanceAs (Decidable (_ ∨ _))

/-- Postgres refuses a negative limit. -/
def queryTable (limit : Option ℤ) (last : Option (ℤ × ℤ)) (table : List DiffAnalysis) :
    Option (List DiffAnalysis) :=
  let rows := match last with
    | some last => table.filter fun d => Behind last d
    | none => table
  let sorted := rows.insertionSort Ordered
  match limit with
  | some limit => if limit < 0 then none else some (sorted.take limit.toNat)
  | none => some sorted

/-- The order of the primary key. -/
def key (d : DiffAnalysis) : ℤ ×ₗ ℤ := toLex d.pair

theorem ordered_iff {d e : DiffAnalysis} : Ordered d e ↔ key d ≤ key e := by
  rw [key, key, Prod.Lex.toLex_le_toLex]
  rfl

theorem behind_iff {last : ℤ × ℤ} {d : DiffAnalysis} : Behind last d ↔ toLex last < key d := by
  rw [key, Prod.Lex.toLex_lt_toLex]
  simp only [Behind, pair, eq_comm]

theorem insertionSort_ordered (rows : List DiffAnalysis) :
    rows.insertionSort Ordered = rows.insertionSort fun d e => key d ≤ key e := by
  have hrel : Ordered = fun d e => key d ≤ key e := by
    funext d e
    exact propext ordered_iff
  congr!

/-- A query with a limit reads a page. -/
theorem queryTable_page (n : ℕ) (last : Option (ℤ × ℤ)) (table : List DiffAnalysis) :
    queryTable (some n) last table = some (KeysetPages.page key n (last.map toLex) table) := by
  have hnonneg : ¬((n : ℤ) < 0) := by omega
  cases last with
  | none => simp [queryTable, KeysetPages.page, KeysetPages.behind, insertionSort_ordered, hnonneg]
  | some last =>
    simp [queryTable, KeysetPages.page, KeysetPages.behind, insertionSort_ordered, hnonneg,
      behind_iff]

theorem nodup_key_iff {table : List DiffAnalysis} :
    (table.map key).Nodup ↔ (table.map pair).Nodup := by
  have hmap : table.map key = (table.map pair).map toLex := by simp [key]
  rw [hmap]
  exact List.nodup_map_iff toLex.injective

theorem nodup_insertBatch {diffs table table' : List DiffAnalysis}
    (h : insertBatchDiffAnalysis diffs table = some table') (htable : (table.map pair).Nodup) :
    (table'.map pair).Nodup := by
  rw [insertBatchDiffAnalysis, Option.ite_none_right_eq_some] at h
  obtain ⟨-, ⟨⟩⟩ := h
  exact Rows.nodup_foldl_upsert htable

theorem mem_insertBatch {diffs table table' : List DiffAnalysis}
    (h : insertBatchDiffAnalysis diffs table = some table') {d : DiffAnalysis} :
    d ∈ table' ↔ d ∈ diffs ∨ d ∈ table ∧ d.pair ∉ diffs.map pair := by
  rw [insertBatchDiffAnalysis, Option.ite_none_right_eq_some] at h
  obtain ⟨hnodup, ⟨⟩⟩ := h
  exact Rows.mem_foldl_upsert hnodup

end DiffAnalysis

end NpmFollower.PostgresDb
