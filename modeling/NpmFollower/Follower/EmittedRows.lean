import NpmFollower.RelationalDbBuilder.DependencyTargets
import NpmFollower.RelationalDbBuilder.LogReplay
import NpmFollower.RelationalDbBuilder.StateHistories

/-! # The rows that a batch adds to the diff log

A batch inserts its entries in one transaction, with ids from a sequence. They are
in the order of their changes, and what creates a package ends with a patch.
-/

namespace NpmFollower.Follower

open PostgresDb DiffLogBuilder RelationalDbBuilder

/-- Entries with the next ids of the sequence. -/
def numbered (lastId : ℤ) : List NewDiffLogEntry → List DiffLogEntry
  | [] => []
  | e :: es => ⟨lastId + 1, e.seq, e.packageName, e.instr⟩ :: numbered (lastId + 1) es

@[simp] theorem map_withoutId_numbered (lastId : ℤ) (es : List NewDiffLogEntry) :
    (numbered lastId es).map withoutId = es := by
  induction es generalizing lastId with
  | nil => rfl
  | cons e es ih => rw [numbered, List.map_cons, ih]; rfl

theorem id_of_mem_numbered {lastId : ℤ} {es : List NewDiffLogEntry} {e : DiffLogEntry}
    (h : e ∈ numbered lastId es) : lastId < e.id ∧ e.id ≤ lastId + es.length := by
  induction es generalizing lastId with
  | nil => cases h
  | cons e' es ih =>
    rw [List.length_cons, Nat.cast_succ]
    rcases List.mem_cons.mp h with rfl | h
    · dsimp only
      omega
    · have hrest := ih h
      omega

theorem inIdOrder_numbered {lastId : ℤ} {es : List NewDiffLogEntry}
    (h : es.Pairwise fun e e' => e.seq ≤ e'.seq) : InIdOrder (numbered lastId es) := by
  induction es generalizing lastId with
  | nil => exact .nil
  | cons e es ih =>
    obtain ⟨hfirst, hrest⟩ := List.pairwise_cons.mp h
    refine List.pairwise_cons.mpr ⟨fun e' he' => ?_, ih hrest⟩
    have hmem : withoutId e' ∈ es := by
      rw [← map_withoutId_numbered (lastId + 1) es]
      exact List.mem_map_of_mem he'
    exact ⟨(id_of_mem_numbered he').1, hfirst _ hmem⟩

section Change

variable {H : Hasher} {c : ParsedChange} {st : Option InternalDiffLogPackageState}

/-- An entry of a change has its seq and its package; only a new package is created, with a patch
at the end. -/
theorem mem_diffVersion {v : Semver} {old : Option InternalDiffLogVersionState}
    {new : Option VersionOnlyPackument} {e : SizedEntry} (he : e ∈ c.diffVersion H v old new) :
    ∃ instr hash, e.1 = c.entry instr hash ∧ ∀ data, instr ≠ .createPackage data := by
  cases old <;> cases new <;> simp only [ParsedChange.diffVersion,
    ParsedChange.generateCreateVersionInstr] at he
  · cases he
  · cases List.mem_singleton.mp he
    exact ⟨_, _, rfl, fun _ h => by cases h⟩
  · split_ifs at he
    · cases he
    · cases List.mem_singleton.mp he
      exact ⟨_, _, rfl, fun _ h => by cases h⟩
  · split_ifs at he
    · cases List.mem_singleton.mp he
      exact ⟨_, _, rfl, fun _ h => by cases h⟩
    · cases he

theorem mem_emitted_some {st : InternalDiffLogPackageState} {e : NewDiffLogEntryWithHash}
    (he : e ∈ c.emitted H (some st)) :
    ∃ instr hash, e = c.entry instr hash ∧ ∀ data, instr ≠ .createPackage data := by
  obtain ⟨d, hd, rfl⟩ := List.mem_map.mp he
  cases hash : st.packagePackHash with
  | none => simp [ParsedChange.diffInstrs, ParsedChange.updateInstrs, hash] at hd
  | some packageHash =>
    simp only [ParsedChange.diffInstrs, ParsedChange.updateInstrs, hash, Option.bind_eq_bind,
      Option.bind_some, Option.pure_def, Option.getD_some, List.mem_append, List.mem_flatMap] at hd
    rcases hd with ⟨v, _, hd⟩ | hd
    · exact mem_diffVersion hd
    · split_ifs at hd
      · cases List.mem_singleton.mp hd
        exact ⟨_, _, rfl, fun _ h => by cases h⟩
      · cases hd

theorem emitted_none : ∃ data hash mid, c.emitted H none =
    c.entry (.createPackage data) hash :: (mid ++ [c.entry .patchPackageReferences none]) ∧
      ∀ e ∈ mid, ∃ instr hash, e = c.entry instr hash ∧ ∀ data, instr ≠ .createPackage data := by
  refine ⟨(ParsedChange.packDataSetLatestToNone c.data).1,
    if (ParsedChange.packDataSetLatestToNone c.data).2 then none else some (H.packageHash c.data),
    (c.versions.toList.map fun e => c.generateCreateVersionInstr H e.1 e.2).map Prod.fst ++
      (if (ParsedChange.packDataSetLatestToNone c.data).2 then
        [(c.entry (.updatePackage c.data) (some (H.packageHash c.data)), (H.package c.data).2)]
      else []).map Prod.fst, ?_, ?_⟩
  · simp only [ParsedChange.emitted, ParsedChange.diffInstrs, Option.getD_some,
      ParsedChange.createInstrs, List.map_append, List.map_cons, List.map_nil, List.append_assoc,
      List.cons_append, List.nil_append]
  · intro e he
    rcases List.mem_append.mp he with he | he
    · obtain ⟨d, hd, rfl⟩ := List.mem_map.mp he
      obtain ⟨x, -, rfl⟩ := List.mem_map.mp hd
      exact ⟨_, _, rfl, fun _ h => by cases h⟩
    · obtain ⟨d, hd, rfl⟩ := List.mem_map.mp he
      split_ifs at hd
      · cases List.mem_singleton.mp hd
        exact ⟨_, _, rfl, fun _ h => by cases h⟩
      · cases hd

theorem mem_emitted {e : NewDiffLogEntryWithHash} (he : e ∈ c.emitted H st) :
    ∃ instr hash, e = c.entry instr hash := by
  cases st with
  | some st =>
    obtain ⟨instr, hash, heq, -⟩ := mem_emitted_some he
    exact ⟨instr, hash, heq⟩
  | none =>
    obtain ⟨data, hash, mid, heq, hmid⟩ := emitted_none (H := H) (c := c)
    rw [heq] at he
    rcases List.mem_cons.mp he with rfl | he
    · exact ⟨_, _, rfl⟩
    · rcases List.mem_append.mp he with he | he
      · obtain ⟨instr, hash, heq, -⟩ := hmid e he
        exact ⟨instr, hash, heq⟩
      · rw [List.mem_singleton.mp he]
        exact ⟨_, _, rfl⟩

end Change

section Patches

/-- Rows of other seqs neither create what is patched here nor patch it. -/
theorem patchesCreations_append {l l' : List DiffLogEntry} (h : PatchesCreations l)
    (h' : PatchesCreations l') (hseqs : ∀ e ∈ l, ∀ e' ∈ l', e.seq ≠ e'.seq) :
    PatchesCreations (l ++ l') := by
  rintro e after ⟨before, hsplit⟩ hcreates
  rcases List.append_eq_append_iff.mp hsplit with ⟨left, rfl, hleft⟩ | ⟨right, rfl, rfl⟩
  · cases left with
    | nil => exact h' e after ⟨[], hleft⟩ hcreates
    | cons e' left =>
      rw [List.cons_append] at hleft
      obtain ⟨rfl, rfl⟩ := List.cons.inj hleft
      have hnone : l'.filter (fun e' => e'.packageName = e.packageName ∧ e'.seq = e.seq) = [] := by
        rw [List.filter_eq_nil_iff]
        intro e' he'
        have hne : e.seq ≠ e'.seq := hseqs e (by simp) e' he'
        simp [hne.symm]
      rw [List.filter_append, hnone, List.append_nil]
      exact h e left ⟨before, rfl⟩ hcreates
  · exact h' e after ⟨right, rfl⟩ hcreates

variable {H : Hasher}

/-- The rows of one change. -/
theorem patchesCreations_change {c : ParsedChange} {st : Option InternalDiffLogPackageState}
    {l : List DiffLogEntry} (hl : l.map withoutId = (c.emitted H st).map (·.entry)) :
    PatchesCreations l := by
  have hentry {e : DiffLogEntry} (he : e ∈ l) : ∃ e' ∈ c.emitted H st, withoutId e = e'.entry := by
    have hmem : withoutId e ∈ (c.emitted H st).map (·.entry) := hl ▸ List.mem_map_of_mem he
    obtain ⟨e', he', heq⟩ := List.mem_map.mp hmem
    exact ⟨e', he', heq.symm⟩
  have hsame : ∀ e ∈ l, (withoutId e).packageName = c.packageName ∧ (withoutId e).seq = c.seq := by
    intro e he
    obtain ⟨e', he', heq⟩ := hentry he
    obtain ⟨instr, hash, rfl⟩ := mem_emitted he'
    rw [heq]
    exact ⟨rfl, rfl⟩
  rintro e after ⟨before, rfl⟩ ⟨data, hinstr⟩
  have hcreates : (withoutId e).instr = .createPackage data := hinstr
  cases st with
  | some st =>
    obtain ⟨e', he', heq⟩ := hentry (e := e) (by simp)
    obtain ⟨instr, hash, rfl, hno⟩ := mem_emitted_some he'
    rw [heq] at hcreates
    exact absurd hcreates (hno data)
  | none =>
    obtain ⟨data', hash, mid, hemitted, hmid⟩ := emitted_none (H := H) (c := c)
    rw [hemitted] at hl
    cases before with
    | cons e₀ before =>
      have hmem : withoutId e ∈ (mid ++ [c.entry .patchPackageReferences none]).map (·.entry) := by
        rw [← (List.cons.inj hl).2]
        simp
      obtain ⟨e', he', heq⟩ := List.mem_map.mp hmem
      rcases List.mem_append.mp he' with he' | he'
      · obtain ⟨instr, hash, rfl, hno⟩ := hmid e' he'
        rw [← heq] at hcreates
        exact absurd hcreates (hno data)
      · rw [← heq, List.mem_singleton.mp he'] at hcreates
        cases hcreates
    | nil =>
      have hafter := (List.cons.inj hl).2
      rw [List.map_append] at hafter
      obtain ⟨front, back, rfl, -, hback⟩ := List.map_eq_append_iff.mp hafter
      obtain ⟨last, back, rfl, hlast, hback⟩ := List.map_eq_cons_iff.mp hback
      obtain rfl := List.map_eq_nil_iff.mp hback
      have hall : (front ++ [last]).filter
          (fun e' => e'.packageName = e.packageName ∧ e'.seq = e.seq) = front ++ [last] := by
        rw [List.filter_eq_self]
        intro e' he'
        have hleft := hsame e' (List.mem_cons_of_mem _ he')
        have hright := hsame e List.mem_cons_self
        exact decide_eq_true ⟨hleft.1.trans hright.1.symm, hleft.2.trans hright.2.symm⟩
      rw [hall]
      exact ⟨last, by simp, congrArg NewDiffLogEntry.instr hlast⟩

theorem seq_of_mem_emitted {L : LocalStates} {cs : List ParsedChange} {e : NewDiffLogEntryWithHash}
    (he : e ∈ LocalStates.emitted H L cs) : ∃ c ∈ cs, e.entry.seq = c.seq := by
  induction cs generalizing L with
  | nil => cases he
  | cons c cs ih =>
    rcases List.mem_append.mp he with he | he
    · obtain ⟨instr, hash, rfl⟩ := mem_emitted he
      exact ⟨c, List.mem_cons_self, rfl⟩
    · obtain ⟨c', hc', hseq⟩ := ih he
      exact ⟨c', List.mem_cons_of_mem _ hc', hseq⟩

/-- What a batch emits is in the order of its changes. -/
theorem pairwise_seq_emitted {L : LocalStates} {cs : List ParsedChange}
    (hcs : cs.Pairwise fun c c' => c.seq < c'.seq) :
    ((LocalStates.emitted H L cs).map (·.entry)).Pairwise fun e e' => e.seq ≤ e'.seq := by
  induction cs generalizing L with
  | nil => exact .nil
  | cons c cs ih =>
    obtain ⟨hfirst, hrest⟩ := List.pairwise_cons.mp hcs
    rw [LocalStates.emitted, List.map_append, List.pairwise_append]
    have hseq : ∀ e ∈ (c.emitted H (L c.packageName).1).map (·.entry), e.seq = c.seq := by
      intro e he
      obtain ⟨d, hd, rfl⟩ := List.mem_map.mp he
      obtain ⟨instr, hash, rfl⟩ := mem_emitted hd
      rfl
    refine ⟨List.pairwise_of_forall_mem_list fun e he e' he' => ?_, ih hrest, fun e he e' he' => ?_⟩
    · rw [hseq e he, hseq e' he']
    · obtain ⟨d, hd, rfl⟩ := List.mem_map.mp he'
      obtain ⟨c', hc', hseq'⟩ := seq_of_mem_emitted hd
      rw [hseq e he, hseq']
      exact (hfirst c' hc').le

theorem patchesCreations_emitted {L : LocalStates} {cs : List ParsedChange} {l : List DiffLogEntry}
    (hcs : cs.Pairwise fun c c' => c.seq < c'.seq)
    (hl : l.map withoutId = (LocalStates.emitted H L cs).map (·.entry)) : PatchesCreations l := by
  induction cs generalizing L l with
  | nil =>
    obtain rfl := List.map_eq_nil_iff.mp hl
    rintro e after ⟨before, hsplit⟩
    simp at hsplit
  | cons c cs ih =>
    obtain ⟨hfirst, hrest⟩ := List.pairwise_cons.mp hcs
    rw [LocalStates.emitted, List.map_append] at hl
    obtain ⟨own, others, rfl, hown, hothers⟩ := List.map_eq_append_iff.mp hl
    refine patchesCreations_append (patchesCreations_change hown) (ih hrest hothers) ?_
    intro e he e' he'
    have hmem : withoutId e ∈ (c.emitted H (L c.packageName).1).map (·.entry) :=
      hown ▸ List.mem_map_of_mem he
    have hmem' : withoutId e' ∈ (LocalStates.emitted H (LocalStates.step H L c) cs).map (·.entry) :=
      hothers ▸ List.mem_map_of_mem he'
    obtain ⟨d, hd, heq⟩ := List.mem_map.mp hmem
    obtain ⟨instr, hash, rfl⟩ := mem_emitted hd
    obtain ⟨d', hd', heq'⟩ := List.mem_map.mp hmem'
    obtain ⟨c', hc', hseq'⟩ := seq_of_mem_emitted hd'
    have hseq : e.seq = c.seq := (congrArg NewDiffLogEntry.seq heq).symm
    have hother : e'.seq = c'.seq := (congrArg NewDiffLogEntry.seq heq').symm.trans hseq'
    rw [hseq, hother]
    exact (hfirst c' hc').ne

end Patches

/-- What the entries of a batch are. -/
structure BatchRows (batch : List Change) (es : List NewDiffLogEntry) : Prop where
  seqs : ∀ e ∈ es, ∃ c ∈ batch, e.seq = c.seq
  ordered : es.Pairwise fun e e' => e.seq ≤ e'.seq
  patched : ∀ l : List DiffLogEntry, l.map withoutId = es → PatchesCreations l

/-- A call that returns appends the rows of its batch. -/
theorem batchRows_processChanges {env : DiffLogBuilder.Env} {db db' : DiffLogDb}
    {batch : List Change} {metrics : ProcessChangeSuccessMetrics}
    (hbatch : batch.Pairwise fun c c' => c.seq < c'.seq)
    (hcall : processChanges env db batch = some (.ok (db', metrics))) :
    ∃ es, db'.diffLog = db.diffLog ++ es ∧ BatchRows batch es := by
  obtain ⟨db₁, metrics₁, hcall₁, hlog, -⟩ :=
    processChanges_spec db (parse_isSome_of_processChanges hcall)
  cases hcall.symm.trans hcall₁
  have hseq {c : Change} {p : ParsedChange} (hp : (c.parse env).join = some p) : p.seq = c.seq := by
    obtain ⟨r, -, hr⟩ := Option.map_eq_some_iff.mp (Option.join_eq_some_iff.mp hp)
    obtain ⟨x, -, rfl⟩ := Option.map_eq_some_iff.mp hr
    rfl
  have hparsed : (parsedChanges env batch).Pairwise fun c c' => c.seq < c'.seq := by
    refine List.Pairwise.filterMap _ ?_ hbatch
    intro c c' hlt p hp p' hp'
    rw [hseq hp, hseq hp']
    exact hlt
  refine ⟨_, hlog, ⟨fun e he => ?_, pairwise_seq_emitted hparsed, fun l hl =>
    patchesCreations_emitted hparsed hl⟩⟩
  obtain ⟨d, hd, rfl⟩ := List.mem_map.mp he
  obtain ⟨p, hp, heq⟩ := seq_of_mem_emitted hd
  obtain ⟨c, hc, hparse⟩ := List.mem_filterMap.mp hp
  exact ⟨c, hc, heq.trans (hseq hparse)⟩

end NpmFollower.Follower
