import NpmFollower.Library.Paging
import NpmFollower.PostgresDb.DiffLog

/-! # Reading the diff log by pages

The builder asks for the entries of a number of seqs after the last one that it
has processed, until a page is empty. The number changes from batch to batch.
-/

namespace NpmFollower.RelationalDbBuilder

open PostgresDb

/-- `ORDER BY id`. -/
abbrev IdLe (e e' : DiffLogEntry) : Prop := e.id ≤ e'.id

/-- `query_diff_entries_after_seq` on the rows of `diff_log`, which have no order of their own. -/
def queryDiffEntriesAfterSeq (diffLog : List DiffLogEntry) (afterSeq limitSize : ℤ) :
    List DiffLogEntry :=
  let seqs := (diffLog.filter fun e => afterSeq < e.seq).map DiffLogEntry.seq
  let seqSubquery := (seqs.dedup.insertionSort (· ≤ ·)).take limitSize.toNat
  (diffLog.filter fun e => e.seq ∈ seqSubquery).insertionSort IdLe

/-- The main loop from a position, with the pages that it has processed. `size` is the page size
after these; without fuel there is no result. -/
def mainLoop (diffLog : List DiffLogEntry) (size : List (List DiffLogEntry) → ℤ) :
    ℕ → List (List DiffLogEntry) → ℤ → Option (List (List DiffLogEntry))
  | 0, _, _ => none
  | fuel + 1, done, processedUpToSeq =>
    let entries := queryDiffEntriesAfterSeq diffLog processedUpToSeq (size done)
    match entries.getLast? with
    | none => some []
    | some last => (mainLoop diffLog size fuel (done ++ [entries]) last.seq).map (entries :: ·)

/-- The page size of the main loop. `est` is what the floating point estimate makes of the numbers
of entries and of seqs in the last four batches. -/
def currentPageSizeSeqs (est : ℕ → ℕ → ℤ) (done : List (List DiffLogEntry)) : ℤ :=
  let batchSizeHistory := (done.reverse.take 4).map fun entries =>
    (entries.length, (entries.map DiffLogEntry.seq).dedup.length)
  if batchSizeHistory.length = 4 then
    min (max (est (batchSizeHistory.map Prod.fst).sum (batchSizeHistory.map Prod.snd).sum) 16) 16384
  else 256

/-- The entries after a position, by id. -/
def entriesAfter (diffLog : List DiffLogEntry) (afterSeq : ℤ) : List DiffLogEntry :=
  (diffLog.filter fun e => afterSeq < e.seq).insertionSort IdLe

/-- Ids are unique, and grow with the seqs. -/
structure CoMonotone (diffLog : List DiffLogEntry) : Prop where
  ids : (diffLog.map DiffLogEntry.id).Nodup
  seqs : ∀ e ∈ diffLog, ∀ e' ∈ diffLog, e.id < e'.id → e.seq ≤ e'.seq

theorem one_le_currentPageSizeSeqs (est : ℕ → ℕ → ℤ) (done : List (List DiffLogEntry)) :
    1 ≤ currentPageSizeSeqs est done := by
  rw [currentPageSizeSeqs]
  split <;> omega

variable {diffLog : List DiffLogEntry}

theorem mem_entriesAfter {afterSeq : ℤ} {e : DiffLogEntry} :
    e ∈ entriesAfter diffLog afterSeq ↔ e ∈ diffLog ∧ afterSeq < e.seq := by
  simp [entriesAfter]

theorem perm_entriesAfter (afterSeq : ℤ) :
    (entriesAfter diffLog afterSeq).Perm (diffLog.filter fun e => afterSeq < e.seq) :=
  List.perm_insertionSort _ _

instance : Std.Total IdLe := ⟨fun e e' => le_total e.id e'.id⟩

instance : IsTrans DiffLogEntry IdLe := ⟨fun _ _ _ => le_trans⟩

section

variable (h : CoMonotone diffLog)

include h

theorem eq_of_id_eq {e e' : DiffLogEntry} (he : e ∈ diffLog) (he' : e' ∈ diffLog)
    (hid : e.id = e'.id) : e = e' :=
  List.inj_on_of_nodup_map h.ids he he' hid

/-- Rows are filtered before or after they are ordered. -/
theorem insertionSort_filter (p : DiffLogEntry → Bool) :
    (diffLog.filter p).insertionSort IdLe = (diffLog.insertionSort IdLe).filter p := by
  refine List.Perm.eq_of_pairwise ?_ (List.pairwise_insertionSort IdLe _)
    ((List.pairwise_insertionSort IdLe _).filter _) ?_
  · intro e e' he he' hle hle'
    have hmem := (List.mem_filter.mp ((List.mem_insertionSort _).mp he)).1
    have hmem' := (List.mem_insertionSort _).mp (List.mem_filter.mp he').1
    exact eq_of_id_eq h hmem hmem' (le_antisymm hle hle')
  · exact (List.perm_insertionSort _ _).trans ((List.perm_insertionSort _ _).symm.filter p)

theorem sorted_entriesAfter (afterSeq : ℤ) :
    Paging.Sorted DiffLogEntry.seq (entriesAfter diffLog afterSeq) := by
  refine (List.pairwise_insertionSort IdLe _).imp_of_mem fun {e e'} he he' hle => ?_
  have hmem := (mem_entriesAfter.mp he).1
  have hmem' := (mem_entriesAfter.mp he').1
  rcases hle.lt_or_eq with hlt | heq
  · exact h.seqs e hmem e' hmem' hlt
  · rw [eq_of_id_eq h hmem hmem' heq]

theorem query_eq_page (afterSeq limitSize : ℤ) :
    queryDiffEntriesAfterSeq diffLog afterSeq limitSize =
      Paging.page DiffLogEntry.seq (entriesAfter diffLog afterSeq) limitSize.toNat := by
  rw [Paging.page, Paging.keys_congr (perm_entriesAfter afterSeq), entriesAfter,
    insertionSort_filter h, List.filter_filter, ← insertionSort_filter h, queryDiffEntriesAfterSeq]
  refine congrArg (List.insertionSort IdLe) (List.filter_congr fun e _ => ?_)
  have hafter : e.seq ∈ (Paging.keys DiffLogEntry.seq
      (diffLog.filter fun e => afterSeq < e.seq)).take limitSize.toNat → afterSeq < e.seq := by
    intro hmem
    obtain ⟨e', he', heq⟩ := Paging.mem_keys.mp (List.mem_of_mem_take hmem)
    rw [← heq]
    simpa using (List.mem_filter.mp he').2
  rw [← Bool.decide_and, decide_eq_decide]
  exact ⟨fun hmem => ⟨hmem, hafter hmem⟩, And.left⟩

theorem entriesAfter_eq_rest {afterSeq seq : ℤ} (hseq : afterSeq ≤ seq) :
    entriesAfter diffLog seq = Paging.rest DiffLogEntry.seq (entriesAfter diffLog afterSeq) seq := by
  rw [Paging.rest, entriesAfter, entriesAfter, insertionSort_filter h, insertionSort_filter h,
    List.filter_filter]
  refine List.filter_congr fun e _ => ?_
  simp only [← Bool.decide_and, decide_eq_decide]
  omega

end

/-- The main loop reads the pages of the entries after its position. -/
theorem mainLoop_eq_readPages (h : CoMonotone diffLog) (size : List (List DiffLogEntry) → ℤ)
    (fuel : ℕ) (done : List (List DiffLogEntry)) (position : ℤ) :
    mainLoop diffLog size fuel done position =
      Paging.readPages DiffLogEntry.seq (fun done => (size done).toNat) fuel done
        (entriesAfter diffLog position) := by
  induction fuel generalizing done position with
  | zero => rfl
  | succ fuel ih =>
    rw [mainLoop, Paging.readPages, query_eq_page h]
    cases hlast : (Paging.page DiffLogEntry.seq (entriesAfter diffLog position)
      (size done).toNat).getLast? with
    | none => rfl
    | some last =>
      have hmem := (List.mem_filter.mp (List.mem_of_getLast? hlast)).1
      dsimp only
      rw [ih, entriesAfter_eq_rest h (mem_entriesAfter.mp hmem).2.le]

/-- At every choice of page sizes the main loop ends, its pages are the entries after the start,
no seq is in two pages, and a page is empty only when no entry is left. -/
theorem mainLoop_partition (h : CoMonotone diffLog) {size : List (List DiffLogEntry) → ℤ}
    (hsize : ∀ done, 1 ≤ size done) (start : ℤ) :
    (∀ fuel, diffLog.length < fuel → ∃ pages, mainLoop diffLog size fuel [] start = some pages ∧
      pages.flatten = entriesAfter diffLog start ∧ (∀ p ∈ pages, p ≠ []) ∧
      pages.Pairwise fun p q => ∀ e ∈ p, ∀ e' ∈ q, e.seq < e'.seq) ∧
    ∀ afterSeq limitSize, 1 ≤ limitSize →
      (queryDiffEntriesAfterSeq diffLog afterSeq limitSize = [] ↔
        entriesAfter diffLog afterSeq = []) := by
  constructor
  · intro fuel hfuel
    have hlength : (entriesAfter diffLog start).length ≤ diffLog.length := by
      rw [(perm_entriesAfter start).length_eq]
      exact List.length_filter_le _ _
    have hkeys : (Paging.keys DiffLogEntry.seq (entriesAfter diffLog start)).length < fuel := by
      exact (Paging.length_keys_le.trans hlength).trans_lt hfuel
    have hpos : ∀ done, 1 ≤ (size done).toNat := fun done => by
      have hone := hsize done
      omega
    rw [mainLoop_eq_readPages h]
    exact Paging.readPages_ok hpos (sorted_entriesAfter h start) hkeys []
  · intro afterSeq limitSize hlimit
    rw [query_eq_page h]
    exact Paging.page_eq_nil_iff (by omega)

/-- Two entries of one package and seq, and the sizes of the main loop. -/
theorem mainLoop_partition_twoSeqs :
    ∃ pages, mainLoop [⟨3, 20, "b", .patchPackageReferences⟩, ⟨1, 10, "a", .patchPackageReferences⟩,
        ⟨2, 10, "a", .patchPackageReferences⟩] (currentPageSizeSeqs fun _ _ => 0) 4 [] 0 = some pages ∧
      pages.flatten.map DiffLogEntry.id = [1, 2, 3] := by
  have hco : CoMonotone [⟨3, 20, "b", .patchPackageReferences⟩,
      ⟨1, 10, "a", .patchPackageReferences⟩, ⟨2, 10, "a", .patchPackageReferences⟩] :=
    ⟨by decide, by simp⟩
  obtain ⟨pages, hpages, hflatten, -⟩ :=
    (mainLoop_partition hco (one_le_currentPageSizeSeqs fun _ _ => 0) 0).1 4 (by decide)
  refine ⟨pages, hpages, ?_⟩
  rw [hflatten]
  decide +kernel

end NpmFollower.RelationalDbBuilder
