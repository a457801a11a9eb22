import NpmFollower.DiffLogBuilder.ProcessChange
import NpmFollower.PostgresDb.BuilderLoop

/-! # Reading the changes by pages

`seq` is the primary key of `change_log`, so a page has all changes up to its last.
-/

namespace NpmFollower.DiffLogBuilder

open PostgresDb

/-- `ORDER BY seq`. -/
abbrev SeqLe (c c' : Change) : Prop := c.seq ≤ c'.seq

instance : Std.Total SeqLe := ⟨fun c c' => le_total c.seq c'.seq⟩

instance : IsTrans Change SeqLe := ⟨fun _ _ _ => le_trans⟩

def queryChangesAfterSeq (changeLog : List Change) (afterSeq limitSize : ℤ) : List Change :=
  ((changeLog.filter fun c => afterSeq < c.seq).insertionSort SeqLe).take limitSize.toNat

def PAGE_SIZE : ℤ := 1024

/-- The process of `diff_log_builder`, which keeps nothing in memory but its position. -/
def diffLogBuilder (env : Env) : Builder Unit DiffLogDb Change where
  seq := Change.seq
  query := queryChangesAfterSeq
  pageSize _ := PAGE_SIZE
  lastPage changes := changes.length < PAGE_SIZE
  new := ()
  processPage _ changes db :=
    match processChanges env db changes with
    | some (.ok (db', _)) => some ((), db')
    | _ => none

theorem mem_queryChangesAfterSeq {changeLog : List Change} {afterSeq limitSize : ℤ} {c : Change}
    (h : c ∈ queryChangesAfterSeq changeLog afterSeq limitSize) :
    c ∈ changeLog ∧ afterSeq < c.seq := by
  have hsorted := (List.mem_insertionSort _).mp (List.mem_of_mem_take h)
  simpa using hsorted

/-- The rows that the limit cuts off do not come before the last of the page. -/
theorem mem_queryChangesAfterSeq_of_le {changeLog : List Change} {afterSeq limitSize : ℤ}
    {last c : Change} (hseqs : (changeLog.map Change.seq).Nodup)
    (hlast : (queryChangesAfterSeq changeLog afterSeq limitSize).getLast? = some last)
    (hc : c ∈ changeLog) (hafter : afterSeq < c.seq) (hle : c.seq ≤ last.seq) :
    c ∈ queryChangesAfterSeq changeLog afterSeq limitSize := by
  have hmem := List.mem_of_getLast? hlast
  have hlastLog := (mem_queryChangesAfterSeq hmem).1
  rw [queryChangesAfterSeq] at hmem ⊢
  have hsorted : c ∈ (changeLog.filter fun c => afterSeq < c.seq).insertionSort SeqLe := by
    rw [List.mem_insertionSort]
    simp [hc, hafter]
  have hordered := List.pairwise_insertionSort SeqLe (changeLog.filter fun c => afterSeq < c.seq)
  rw [← List.take_append_drop limitSize.toNat
    ((changeLog.filter fun c => afterSeq < c.seq).insertionSort SeqLe)] at hsorted hordered
  rcases List.mem_append.mp hsorted with htake | hdrop
  · exact htake
  · have hge : last.seq ≤ c.seq := (List.pairwise_append.mp hordered).2.2 last hmem c hdrop
    have heq : c = last := List.inj_on_of_nodup_map hseqs hc hlastLog (by omega)
    rwa [heq]

theorem diffLogBuilder_readsPages (env : Env) {changeLog : List Change}
    (hseqs : (changeLog.map Change.seq).Nodup) :
    (diffLogBuilder env).ReadsPages changeLog := by
  constructor
  · intro shown after limit c hc
    obtain ⟨hmem, hafter⟩ := mem_queryChangesAfterSeq hc
    obtain ⟨hlog, hshown⟩ := List.mem_filter.mp hmem
    exact ⟨hlog, hafter, by simpa using hshown⟩
  · intro shown after limit last c hlast hc hshown hafter hle
    apply mem_queryChangesAfterSeq_of_le _ hlast _ hafter hle
    · exact hseqs.sublist (List.filter_sublist.map _)
    · simpa [hc] using hshown

end NpmFollower.DiffLogBuilder
