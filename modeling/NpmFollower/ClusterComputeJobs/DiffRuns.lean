import NpmFollower.ClusterComputeJobs.DiffAnswers
import NpmFollower.Library.Runs

/-! # The job that computes the diffs

The pairs of a table go in any order through the workers to the cluster, and what
comes back goes to the tables batch by batch. The job stops anywhere and is started
again. No pair is in two hands, each is to compute or has a definitive result, and
such a result is never written over.
-/

namespace NpmFollower.ClusterComputeJobs

open BlobIdxClient PostgresDb WorkerPipeline

structure DiffWorld where
  tables : DiffTables
  run : Option (Pipeline QRes PostgresDb.DiffAnalysis)

inductive DiffAction where
  /-- A run begins, with the rows in a random order. -/
  | start (order : List QRes)
  | pipe (a : WorkerPipeline.Action Cluster)
  | commit
  | stop

namespace DiffWorld

/-- The tables that `prepare_diffs_to_compute.sql` leaves, from all pairs with two tarballs. -/
def prepared (rows : List QRes) (old : List PostgresDb.DiffAnalysis) : DiffWorld :=
  ⟨⟨Rows.deleteKeys QRes.pair rows (old.map (·.pair)), old⟩, none⟩

/-- A batch that the table refuses ends the run. -/
def step (E : Codecs) (w : DiffWorld) : DiffAction → Option DiffWorld
  | .start order =>
    if w.run.isNone ∧ order.isPerm w.tables.diffsToCompute then
      some { w with run := some (.start (chunks chunkSize order) numLocalWorkers) }
    else none
  | .pipe a => do
    let p ← w.run
    let p ← p.step (diffWorker E) numWorkers a
    return { w with run := some p }
  | .commit => do
    let p ← w.run
    let (batch, p) ← p.pop
    match w.tables.insertDiffs batch with
    | some tables => return ⟨tables, some p⟩
    | none => return { w with run := none }
  | .stop => some { w with run := none }

/-- All programs on the nodes are known ones. -/
def Meets (Known : Binary → Prop) (_ : DiffWorld) : DiffAction → Prop
  | .pipe (.answer _ cluster) => ∀ i binary, cluster.node i = some binary → Known binary
  | _ => True

/-- The run goes on, and all nodes answer. -/
def Delivers (E : Codecs) (Known : Binary → Prop) (w : DiffWorld) : DiffAction → Prop
  | .pipe (.answer i cluster) => w.Meets Known (.pipe (.answer i cluster)) ∧
    ∀ p chunk, w.run = some p → p.workers[i]? = some (.computing chunk) → Answers E cluster chunk
  | .stop => False
  | _ => True

end DiffWorld

/-! ## A batch in the tables -/

namespace DiffTables

variable {batch : List PostgresDb.DiffAnalysis} {t t' : DiffTables}

/-- What the transaction for a batch does. -/
structure Inserted (batch : List PostgresDb.DiffAnalysis) (t t' : DiffTables) : Prop where
  sublist : t'.diffsToCompute.Sublist t.diffsToCompute
  mem_diffsToCompute : ∀ q, q ∈ t'.diffsToCompute ↔
    q ∈ t.diffsToCompute ∧ ∀ d ∈ batch, definitive d → d.pair ≠ q.pair
  mem_diffAnalysis : ∀ d, d ∈ t'.diffAnalysis ↔
    d ∈ batch ∨ d ∈ t.diffAnalysis ∧ d.pair ∉ batch.map (·.pair)
  nodup : (t.diffAnalysis.map (·.pair)).Nodup → (t'.diffAnalysis.map (·.pair)).Nodup

theorem mem_deleteRowsAfterCompute {q : QRes} :
    q ∈ (t.deleteRowsAfterCompute batch).diffsToCompute ↔
      q ∈ t.diffsToCompute ∧ ∀ d ∈ batch, definitive d → d.pair ≠ q.pair := by
  rw [deleteRowsAfterCompute, Rows.mem_deleteKeys, List.mem_map]
  refine and_congr_right fun _ => ?_
  constructor
  · exact fun h d hd hdef hpair => h ⟨d, List.mem_filter.mpr ⟨hd, hdef⟩, hpair⟩
  · rintro h ⟨d, hd, hpair⟩
    obtain ⟨hd, hdef⟩ := List.mem_filter.mp hd
    exact h d hd hdef hpair

theorem inserted_insertDiffs (hbatch : (batch.map (·.pair)).Nodup) :
    ∃ t', t.insertDiffs batch = some t' ∧ Inserted batch t t' := by
  rw [insertDiffs]
  split_ifs with hempty
  · obtain rfl := List.isEmpty_iff.mp hempty
    exact ⟨t, rfl, List.Sublist.refl _, fun q => by simp, fun d => by simp, id⟩
  · have hinsert : DiffAnalysis.insertBatchDiffAnalysis batch t.diffAnalysis =
        some (batch.foldl (Rows.upsert DiffAnalysis.pair) t.diffAnalysis) := if_pos hbatch
    refine ⟨⟨(t.deleteRowsAfterCompute batch).diffsToCompute,
      batch.foldl (Rows.upsert DiffAnalysis.pair) t.diffAnalysis⟩, ?_, ?_, ?_, ?_, ?_⟩
    · exact Option.bind_eq_some_iff.mpr ⟨_, hinsert, rfl⟩
    · exact List.filter_sublist
    · exact fun q => mem_deleteRowsAfterCompute
    · exact fun d => Rows.mem_foldl_upsert hbatch
    · exact Rows.nodup_foldl_upsert

theorem Inserted.of_insertDiffs (hbatch : (batch.map (·.pair)).Nodup)
    (h : t.insertDiffs batch = some t') : Inserted batch t t' := by
  obtain ⟨t₁, ht₁, hinserted⟩ := inserted_insertDiffs (t := t) hbatch
  cases ht₁.symm.trans h
  exact hinserted

end DiffTables

/-! ## What holds in all states -/

namespace DiffWorld

section Invariant

variable {E : Codecs} {Known : Binary → Prop} {rows : List QRes}
  {old : List PostgresDb.DiffAnalysis}

/-- The result is one that a known program gave for the tarballs of the pair. -/
def Ran (E : Codecs) (Known : Binary → Prop) (q : QRes) (d : PostgresDb.DiffAnalysis) : Prop :=
  d.pair = q.pair ∧ ∃ binary res, Known binary ∧ binary q.keys = .ok res ∧
    jobResult E res = some d.jobResult

/-- What is on its way is to compute, and no pair is there twice. -/
structure InFlight (E : Codecs) (Known : Binary → Prop) (toCompute : List QRes)
    (p : Pipeline QRes PostgresDb.DiffAnalysis) : Prop where
  nodup : (p.items.map QRes.pair + p.outputs.map DiffAnalysis.pair).Nodup
  items : ∀ q ∈ p.items, q ∈ toCompute
  outputs : ∀ d ∈ p.outputs, ∃ q ∈ toCompute, Ran E Known q d

structure Safe (E : Codecs) (Known : Binary → Prop) (rows : List QRes)
    (old : List PostgresDb.DiffAnalysis) (w : DiffWorld) : Prop where
  sublist : w.tables.diffsToCompute.Sublist (prepared rows old).tables.diffsToCompute
  nodup : (w.tables.diffAnalysis.map (·.pair)).Nodup
  covered : ∀ q ∈ (prepared rows old).tables.diffsToCompute, q ∈ w.tables.diffsToCompute ∨
    ∃ d ∈ w.tables.diffAnalysis, d.pair = q.pair ∧ definitive d
  exclusive : ∀ q ∈ w.tables.diffsToCompute, ∀ d ∈ w.tables.diffAnalysis, d.pair = q.pair →
    ¬ definitive d ∧ d ∉ old
  stored : ∀ d ∈ w.tables.diffAnalysis, d ∈ old ∨
    ∃ q ∈ (prepared rows old).tables.diffsToCompute, Ran E Known q d
  inFlight : ∀ p, w.run = some p → InFlight E Known w.tables.diffsToCompute p

/-- No row for a pair that is not to compute is lost. -/
structure Kept (w w' : DiffWorld) : Prop where
  subset : w'.tables.diffsToCompute ⊆ w.tables.diffsToCompute
  settled : ∀ d ∈ w.tables.diffAnalysis, (∀ q ∈ w.tables.diffsToCompute, d.pair ≠ q.pair) →
    d ∈ w'.tables.diffAnalysis

theorem Kept.refl (w : DiffWorld) : Kept w w := ⟨List.Subset.refl _, fun _ hd _ => hd⟩

theorem Kept.trans {w w₁ w₂ : DiffWorld} (h : Kept w w₁) (h' : Kept w₁ w₂) : Kept w w₂ :=
  ⟨List.Subset.trans h'.subset h.subset, fun d hd hsettled =>
    h'.settled d (h.settled d hd hsettled) fun q hq => hsettled q (h.subset hq)⟩

theorem mem_prepared {q : QRes} :
    q ∈ (prepared rows old).tables.diffsToCompute ↔ q ∈ rows ∧ q.pair ∉ old.map (·.pair) :=
  Rows.mem_deleteKeys

theorem safe_prepared (hold : (old.map (·.pair)).Nodup) :
    (prepared rows old).Safe E Known rows old where
  sublist := List.Sublist.refl _
  nodup := hold
  covered := fun _ hq => Or.inl hq
  exclusive := fun _ hq _ hd hpair =>
    absurd (hpair ▸ List.mem_map_of_mem hd) (mem_prepared.mp hq).2
  stored := fun _ hd => Or.inl hd
  inFlight := fun _ hp => nomatch hp

variable {w w' : DiffWorld} {p p' : Pipeline QRes PostgresDb.DiffAnalysis}

theorem Safe.rows_subset (hs : w.Safe E Known rows old) : w.tables.diffsToCompute ⊆ rows :=
  fun _ hq => (mem_prepared.mp (hs.sublist.subset hq)).1

theorem Safe.pairs_nodup (hs : w.Safe E Known rows old) (hrows : (rows.map QRes.pair).Nodup) :
    (w.tables.diffsToCompute.map QRes.pair).Nodup :=
  hrows.sublist ((hs.sublist.trans List.filter_sublist).map _)

/-- The same tables with other things on their way. -/
theorem Safe.setRun (hs : w.Safe E Known rows old) {run : Option (Pipeline _ _)}
    (h : ∀ p, run = some p → InFlight E Known w.tables.diffsToCompute p) :
    Safe E Known rows old { w with run } :=
  ⟨hs.sublist, hs.nodup, hs.covered, hs.exclusive, hs.stored, h⟩

theorem inFlight_start {toCompute order : List QRes} (hnodup : (toCompute.map QRes.pair).Nodup)
    (hperm : order.Perm toCompute) (workers : ℕ) :
    InFlight E Known toCompute (.start (chunks chunkSize order) workers) := by
  have hitems := @Pipeline.items_start QRes PostgresDb.DiffAnalysis (chunks chunkSize order) workers
  rw [flatten_chunks (by decide)] at hitems
  refine ⟨?_, fun q hq => ?_, fun d hd => ?_⟩
  · rw [hitems, Pipeline.outputs_start, Multiset.map_zero, add_zero, Multiset.map_coe]
    exact (hperm.map _).nodup_iff.mpr hnodup
  · rw [hitems] at hq
    exact hperm.mem_iff.mp hq
  · rw [Pipeline.outputs_start] at hd
    exact absurd hd (Multiset.notMem_zero d)

/-- A worker answers a chunk with results for some of its pairs, one for each. -/
theorem InFlight.pipe {a : WorkerPipeline.Action Cluster} {toCompute : List QRes}
    (h : InFlight E Known toCompute p) (hkeys : WellKeyed toCompute)
    (hmeets : w.Meets Known (.pipe a)) (hstep : p.step (diffWorker E) numWorkers a = some p') :
    InFlight E Known toCompute p' := by
  rcases Pipeline.step_cases hstep with ⟨hitems, houtputs⟩ | ⟨i, cluster, chunk, rfl, -, hitems, hcases⟩
  · exact ⟨by rw [hitems, houtputs]; exact h.nodup, hitems ▸ h.items, houtputs ▸ h.outputs⟩
  have hkept : ∀ q ∈ p'.items, q ∈ toCompute := fun q hq =>
    h.items q (hitems ▸ Multiset.mem_add.mpr (Or.inr hq))
  have hchunk : chunk ⊆ toCompute := fun q hq =>
    h.items q (hitems ▸ Multiset.mem_add.mpr (Or.inl hq))
  have hnodup := h.nodup
  rw [hitems, Multiset.map_add] at hnodup
  rcases hcases with ⟨-, houtputs⟩ | ⟨results, hresults, houtputs⟩
  · refine ⟨Multiset.nodup_of_le ?_ hnodup, hkept, houtputs ▸ h.outputs⟩
    rw [houtputs]
    exact add_le_add_left (Multiset.le_add_left _ _) _
  · have hanswered := answered_diffWorker (hkeys.subset hchunk) hresults
    have hpairs : (↑(results.map DiffAnalysis.pair) : Multiset (ℤ × ℤ)) ≤
        ↑(chunk.map QRes.pair) := by
      refine (Multiset.le_iff_subset (Multiset.coe_nodup.mpr hanswered.nodup)).mpr fun k hk => ?_
      obtain ⟨d, hd, rfl⟩ := List.mem_map.mp (Multiset.mem_coe.mp hk)
      obtain ⟨q, hq, hpair, -⟩ := hanswered.computed d hd
      exact Multiset.mem_coe.mpr (List.mem_map.mpr ⟨q, hq, hpair.symm⟩)
    refine ⟨Multiset.nodup_of_le ?_ hnodup, hkept, fun d hd => ?_⟩
    · rw [houtputs, Multiset.map_add, Multiset.map_coe, Multiset.map_coe, ← add_assoc]
      refine add_le_add_left ?_ _
      rw [add_comm]
      exact add_le_add_left hpairs _
    · rw [houtputs] at hd
      rcases Multiset.mem_add.mp hd with hd | hd
      · obtain ⟨q, hq, hpair, n, binary, res, hnode, hok, hr⟩ :=
          hanswered.computed d (Multiset.mem_coe.mp hd)
        exact ⟨q, hchunk hq, hpair, binary, res, hmeets n binary hnode, hok, hr⟩
      · exact h.outputs d hd

theorem InFlight.batch_nodup {toCompute : List QRes} (h : InFlight E Known toCompute p)
    {batch : List PostgresDb.DiffAnalysis} (hpop : p.pop = some (batch, p')) :
    (batch.map DiffAnalysis.pair).Nodup := by
  have hnodup := h.nodup
  rw [(Pipeline.pop_cases hpop).2, Multiset.map_add, Multiset.map_coe] at hnodup
  exact Multiset.coe_nodup.mp
    (Multiset.nodup_of_le ((Multiset.le_add_right _ _).trans (Multiset.le_add_left _ _)) hnodup)

/-- What stays on its way is not about the pairs of the batch. -/
theorem InFlight.commit {t t' : DiffTables} (h : InFlight E Known t.diffsToCompute p)
    {batch : List PostgresDb.DiffAnalysis} (hpop : p.pop = some (batch, p'))
    (hinserted : DiffTables.Inserted batch t t') : InFlight E Known t'.diffsToCompute p' := by
  obtain ⟨hitems, houtputs⟩ := Pipeline.pop_cases hpop
  have hnodup := h.nodup
  rw [houtputs, Multiset.map_add, Multiset.map_coe, add_left_comm, ← hitems] at hnodup
  obtain ⟨-, hrest, hdisjoint⟩ := Multiset.nodup_add.mp hnodup
  have hother : ∀ pair ∈ p'.items.map QRes.pair + p'.outputs.map DiffAnalysis.pair,
      ∀ d ∈ batch, definitive d → d.pair ≠ pair := by
    rintro pair hpair d hd - rfl
    exact Multiset.disjoint_left.mp hdisjoint
      (Multiset.mem_coe.mpr (List.mem_map_of_mem hd)) hpair
  refine ⟨hrest, fun q hq => ?_, fun d hd => ?_⟩
  · refine (hinserted.mem_diffsToCompute q).mpr ⟨h.items q (hitems ▸ hq), hother q.pair ?_⟩
    exact Multiset.mem_add.mpr (Or.inl (Multiset.mem_map_of_mem _ hq))
  · obtain ⟨q, hq, hran⟩ := h.outputs d (houtputs ▸ Multiset.mem_add.mpr (Or.inr hd))
    refine ⟨q, (hinserted.mem_diffsToCompute q).mpr ⟨hq, hran.1 ▸ hother d.pair ?_⟩, hran⟩
    exact Multiset.mem_add.mpr (Or.inr (Multiset.mem_map_of_mem _ hd))

/-- A batch takes out the pairs with definitive results and writes a row for each pair. -/
theorem Safe.insertDiffs {t' : DiffTables} (hs : w.Safe E Known rows old) (hrun : w.run = some p)
    {batch : List PostgresDb.DiffAnalysis} (hpop : p.pop = some (batch, p'))
    (hinserted : DiffTables.Inserted batch w.tables t') : Safe E Known rows old ⟨t', some p'⟩ := by
  have hflight := hs.inFlight p hrun
  have hbatch : ∀ d ∈ batch, ∃ q ∈ w.tables.diffsToCompute, Ran E Known q d := fun d hd =>
    hflight.outputs d ((Pipeline.pop_cases hpop).2 ▸ Multiset.mem_add.mpr (Or.inl hd))
  refine ⟨hinserted.sublist.trans hs.sublist, hinserted.nodup hs.nodup, fun q hq => ?_,
    fun q hq d hd hpair => ?_, fun d hd => ?_, fun p₁ hp₁ => ?_⟩
  · rcases hs.covered q hq with hq' | ⟨d, hd, hpair, hdef⟩
    · by_cases hq'' : q ∈ t'.diffsToCompute
      · exact Or.inl hq''
      · rw [hinserted.mem_diffsToCompute] at hq''
        push Not at hq''
        obtain ⟨d, hd, hdef, hpair⟩ := hq'' hq'
        exact Or.inr ⟨d, (hinserted.mem_diffAnalysis d).mpr (Or.inl hd), hpair, hdef⟩
    · refine Or.inr ⟨d, (hinserted.mem_diffAnalysis d).mpr (Or.inr ⟨hd, fun hmem => ?_⟩), hpair, hdef⟩
      obtain ⟨d', hd', hpair'⟩ := List.mem_map.mp hmem
      obtain ⟨q', hq', hran⟩ := hbatch d' hd'
      exact (hs.exclusive q' hq' d hd (hpair'.symm.trans hran.1)).1 hdef
  · obtain ⟨hq', hnot⟩ := (hinserted.mem_diffsToCompute q).mp hq
    rcases (hinserted.mem_diffAnalysis d).mp hd with hd | ⟨hd, -⟩
    · refine ⟨fun hdef => hnot d hd hdef hpair, fun hmem => ?_⟩
      exact (mem_prepared.mp (hs.sublist.subset hq')).2 (hpair ▸ List.mem_map_of_mem hmem)
    · exact hs.exclusive q hq' d hd hpair
  · rcases (hinserted.mem_diffAnalysis d).mp hd with hd | ⟨hd, -⟩
    · obtain ⟨q, hq, hran⟩ := hbatch d hd
      exact Or.inr ⟨q, hs.sublist.subset hq, hran⟩
    · exact hs.stored d hd
  · cases hp₁
    exact hflight.commit hpop hinserted

theorem kept_insertDiffs {t' : DiffTables} (hs : w.Safe E Known rows old) (hrun : w.run = some p)
    {batch : List PostgresDb.DiffAnalysis} (hpop : p.pop = some (batch, p'))
    (hinserted : DiffTables.Inserted batch w.tables t') : Kept w ⟨t', some p'⟩ := by
  refine ⟨hinserted.sublist.subset, fun d hd hsettled => ?_⟩
  refine (hinserted.mem_diffAnalysis d).mpr (Or.inr ⟨hd, fun hmem => ?_⟩)
  obtain ⟨d', hd', hpair⟩ := List.mem_map.mp hmem
  obtain ⟨q, hq, hran⟩ := (hs.inFlight p hrun).outputs d'
    ((Pipeline.pop_cases hpop).2 ▸ Multiset.mem_add.mpr (Or.inl hd'))
  exact hsettled q hq (hpair.symm.trans hran.1)

/-- What a step can be. -/
theorem step_cases {a : DiffAction} (h : w.step E a = some w') :
    (∃ order, a = .start order ∧ order.Perm w.tables.diffsToCompute ∧
      w' = { w with run := some (.start (chunks chunkSize order) numLocalWorkers) }) ∨
    (∃ b p p', a = .pipe b ∧ w.run = some p ∧ p.step (diffWorker E) numWorkers b = some p' ∧
      w' = { w with run := some p' }) ∨
    (∃ p batch p', a = .commit ∧ w.run = some p ∧ p.pop = some (batch, p') ∧
      (w.tables.insertDiffs batch = none ∧ w' = { w with run := none } ∨
        ∃ tables, w.tables.insertDiffs batch = some tables ∧ w' = ⟨tables, some p'⟩)) ∨
    a = .stop ∧ w' = { w with run := none } := by
  cases a with
  | start order =>
    rw [step, Option.ite_none_right_eq_some] at h
    obtain ⟨⟨-, hperm⟩, h⟩ := h
    exact Or.inl ⟨order, rfl, List.isPerm_iff.mp hperm, (Option.some.inj h).symm⟩
  | pipe b =>
    obtain ⟨p, hp, h⟩ := Option.bind_eq_some_iff.mp h
    obtain ⟨p', hp', h⟩ := Option.bind_eq_some_iff.mp h
    exact Or.inr (Or.inl ⟨b, p, p', rfl, hp, hp', (Option.some.inj h).symm⟩)
  | commit =>
    obtain ⟨p, hp, h⟩ := Option.bind_eq_some_iff.mp h
    obtain ⟨⟨batch, p'⟩, hpop, h⟩ := Option.bind_eq_some_iff.mp h
    refine Or.inr (Or.inr (Or.inl ⟨p, batch, p', rfl, hp, hpop, ?_⟩))
    cases hinsert : w.tables.insertDiffs batch with
    | none =>
      simp only [hinsert] at h
      exact Or.inl ⟨rfl, (Option.some.inj h).symm⟩
    | some tables =>
      simp only [hinsert] at h
      exact Or.inr ⟨tables, rfl, (Option.some.inj h).symm⟩
  | stop => exact Or.inr (Or.inr (Or.inr ⟨rfl, (Option.some.inj h).symm⟩))

theorem Safe.step {a : DiffAction} (hs : w.Safe E Known rows old)
    (hrows : (rows.map QRes.pair).Nodup) (hkeys : WellKeyed rows) (hmeets : w.Meets Known a)
    (h : w.step E a = some w') : w'.Safe E Known rows old ∧ Kept w w' := by
  have hsame : ∀ run, Kept w { w with run } := fun _ => ⟨List.Subset.refl _, fun _ hd _ => hd⟩
  rcases step_cases h with ⟨order, rfl, hperm, rfl⟩ | ⟨b, p, p', rfl, hp, hp', rfl⟩ |
    ⟨p, batch, p', rfl, hp, hpop, hcases⟩ | ⟨rfl, rfl⟩
  · refine ⟨hs.setRun fun p hp => ?_, hsame _⟩
    cases hp
    exact inFlight_start (hs.pairs_nodup hrows) hperm _
  · refine ⟨hs.setRun fun p₁ hp₁ => ?_, hsame _⟩
    cases hp₁
    exact (hs.inFlight p hp).pipe (hkeys.subset hs.rows_subset) hmeets hp'
  · obtain ⟨tables, htables, hinserted⟩ :=
      DiffTables.inserted_insertDiffs (t := w.tables) ((hs.inFlight p hp).batch_nodup hpop)
    rcases hcases with ⟨hnone, -⟩ | ⟨tables', htables', rfl⟩
    · cases htables.symm.trans hnone
    · cases htables.symm.trans htables'
      exact ⟨hs.insertDiffs hp hpop hinserted, kept_insertDiffs hs hp hpop hinserted⟩
  · exact ⟨hs.setRun (fun p hp => nomatch hp), hsame _⟩

theorem safe_of_reach (hrows : (rows.map QRes.pair).Nodup) (hkeys : WellKeyed rows)
    (hs : w.Safe E Known rows old) (h : Runs.Reach (step E) (Meets Known) w w') :
    w'.Safe E Known rows old ∧ Kept w w' := by
  refine h.invariant (I := fun s => s.Safe E Known rows old ∧ Kept w s) ⟨hs, Kept.refl w⟩ ?_
  intro s a s' hI hmeets hstep
  obtain ⟨hsafe, hkept⟩ := hI.1.step hrows hkeys hmeets hstep
  exact ⟨hsafe, hI.2.trans hkept⟩

/-! ## A run that delivers -/

/-- All that is to compute is on its way, and what is computed is definitive. -/
def Pending (w : DiffWorld) : Prop :=
  ∃ p, w.run = some p ∧
    (∀ q ∈ w.tables.diffsToCompute, q ∈ p.items ∨ ∃ d ∈ p.outputs, d.pair = q.pair) ∧
    ∀ d ∈ p.outputs, definitive d

theorem meets_of_delivers {a : DiffAction} (h : w.Delivers E Known a) : w.Meets Known a := by
  cases a with
  | pipe b =>
    cases b with
    | answer i cluster => exact h.1
    | send => trivial
    | take i => trivial
    | push i => trivial
    | leave i => trivial
  | start order => trivial
  | commit => trivial
  | stop => trivial

theorem pending_start {order : List QRes} (hperm : order.Perm w.tables.diffsToCompute) :
    Pending { w with run := some (.start (chunks chunkSize order) numLocalWorkers) } := by
  refine ⟨_, rfl, fun q hq => Or.inl ?_, fun d hd => ?_⟩
  · rw [Pipeline.items_start, flatten_chunks (by decide)]
    exact hperm.mem_iff.mpr hq
  · rw [Pipeline.outputs_start] at hd
    exact absurd hd (Multiset.notMem_zero d)

theorem Pending.step {a : DiffAction} (hpending : w.Pending) (hs : w.Safe E Known rows old)
    (hkeys : WellKeyed rows) (hdelivers : w.Delivers E Known a) (h : w.step E a = some w') :
    w'.Pending := by
  obtain ⟨p, hp, hcovered, hdef⟩ := hpending
  rcases step_cases h with ⟨order, rfl, hperm, rfl⟩ | ⟨b, p₁, p', rfl, hp₁, hp', rfl⟩ |
    ⟨p₁, batch, p', rfl, hp₁, hpop, hcases⟩ | ⟨rfl, rfl⟩
  · exact pending_start hperm
  · cases hp.symm.trans hp₁
    rcases Pipeline.step_cases hp' with ⟨hitems, houtputs⟩ |
      ⟨i, cluster, chunk, rfl, hworker, hitems, hcases⟩
    · exact ⟨p', rfl, by rw [hitems, houtputs]; exact hcovered, houtputs ▸ hdef⟩
    have hchunk : chunk ⊆ rows := fun q hq => hs.rows_subset
      ((hs.inFlight p hp).items q (hitems ▸ Multiset.mem_add.mpr (Or.inl hq)))
    obtain ⟨rs, hrs, hall, hrsDef⟩ :=
      (hdelivers.2 p chunk hp hworker).diffWorker (hkeys.subset hchunk)
    rcases hcases with ⟨hnone, -⟩ | ⟨results, hresults, houtputs⟩
    · cases hrs.symm.trans hnone
    cases hrs.symm.trans hresults
    refine ⟨p', rfl, fun q hq => ?_, fun d hd => ?_⟩
    · rw [houtputs]
      rcases hcovered q hq with hitem | ⟨d, hd, hpair⟩
      · rw [hitems] at hitem
        rcases Multiset.mem_add.mp hitem with hitem | hitem
        · obtain ⟨d, hd, hpair⟩ := hall q hitem
          exact Or.inr ⟨d, Multiset.mem_add.mpr (Or.inl hd), hpair⟩
        · exact Or.inl hitem
      · exact Or.inr ⟨d, Multiset.mem_add.mpr (Or.inr hd), hpair⟩
    · rw [houtputs] at hd
      rcases Multiset.mem_add.mp hd with hd | hd
      · exact hrsDef d hd
      · exact hdef d hd
  · cases hp.symm.trans hp₁
    have hbatch := (hs.inFlight p hp).batch_nodup hpop
    obtain ⟨hitems, houtputs⟩ := Pipeline.pop_cases hpop
    rw [houtputs] at hdef
    rcases hcases with ⟨hnone, -⟩ | ⟨tables, htables, rfl⟩
    · obtain ⟨t', ht', -⟩ := DiffTables.inserted_insertDiffs (t := w.tables) hbatch
      cases ht'.symm.trans hnone
    have hinserted := DiffTables.Inserted.of_insertDiffs hbatch htables
    refine ⟨p', rfl, fun q hq => ?_, fun d hd => hdef d (Multiset.mem_add.mpr (Or.inr hd))⟩
    obtain ⟨hq, hnot⟩ := (hinserted.mem_diffsToCompute q).mp hq
    rcases hcovered q hq with hitem | ⟨d, hd, hpair⟩
    · exact Or.inl (hitems ▸ hitem)
    · rw [houtputs] at hd
      rcases Multiset.mem_add.mp hd with hbatchMem | hd
      · exact absurd hpair (hnot d hbatchMem (hdef d hd))
      · exact Or.inr ⟨d, hd, hpair⟩
  · exact hdelivers.elim

end Invariant

section Killed

/-- The decoders at an empty object. -/
def emptyObject : Codecs :=
  ⟨fun text => if text = "e30=" then some [123, 125] else none,
    fun bytes => if bytes = [123, 125] then some ∅ else none, fun _ => none⟩

def twoPairs : List QRes := [⟨1, 2, "a", "b"⟩, ⟨3, 4, "c", "d"⟩]

/-- The program is killed at the second pair. -/
def killedAtSecond : Binary := fun urls =>
  if urls = ["a", "b"] then .ok ⟨0, "e30=", ""⟩ else .ok ⟨1, "", "killed"⟩

def computeTwo : List DiffAction :=
  [.start twoPairs.reverse, .pipe .send, .pipe (.take 1),
    .pipe (.answer 1 ⟨true, fun _ => some killedAtSecond⟩), .pipe (.push 1), .commit, .stop]

theorem wellKeyed_twoPairs : WellKeyed twoPairs :=
  ⟨by decide +kernel, by decide +kernel⟩

end Killed

end DiffWorld

end NpmFollower.ClusterComputeJobs
