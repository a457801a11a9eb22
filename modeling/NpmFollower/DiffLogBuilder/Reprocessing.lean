import NpmFollower.PostgresDb.JsonMaps
import NpmFollower.DiffLogBuilder.Run

/-! # Processing a document again

A change leaves the hashes and the flags that the next comparison computes from
the same document. So the same document, brought once more by a later change,
emits nothing and leaves the manager as it is.
-/

namespace NpmFollower

open Std PostgresDb

namespace DiffLogBuilder

/-- The changes bring the same document. Their sequence numbers and the fields that nobody reads
may differ. -/
structure Change.SameDocument (c c' : Change) (m m' : JsonMap) : Prop where
  rawJson : c.rawJson = .object m
  rawJson' : c'.rawJson = .object m'
  nodup : (m.map Prod.fst).Nodup
  nodup' : (m'.map Prod.fst).Nodup
  get : ∀ key ∈ ["deleted", "id", "doc"], m'.get key = m.get key

/-- What the deserialiser makes of the three fields that it reads. -/
def Parsers.deserializeFields (P : Parsers) (deleted id doc : Option Value) :
    Option (Option (String × PackageOnlyPackument × AllVersionPackuments)) := do
  let del ← (← deleted).asBool
  let packageName ← (← id).asString
  if packageName = "_design/app" ∨ packageName = "_design/scratch" then
    return none
  let doc ← (← doc).asObject
  let parsed ← P.deserializePackumentDoc doc (some del) (some packageName)
  return some parsed

theorem Parsers.deserializeChange_eq (P : Parsers) {c : Change} {m : JsonMap}
    (hjson : c.rawJson = .object m) (hm : (m.map Prod.fst).Nodup) :
    P.deserializeChange c = P.deserializeFields (m.get "deleted") (m.get "id") (m.get "doc") := by
  have hm' := JsonMap.nodup_remove hm "deleted"
  have hid : (m.remove "deleted").2.get "id" = m.get "id" :=
    JsonMap.get_remove_of_ne hm (by decide)
  have hdoc : ((m.remove "deleted").2.remove "id").2.get "doc" = m.get "doc" := by
    rw [JsonMap.get_remove_of_ne hm' (by decide), JsonMap.get_remove_of_ne hm (by decide)]
  rw [deserializeChange, hjson, deserializeFields]
  simp only [Value.asObject, Option.bind_eq_bind, Option.bind_some, Option.bind_none,
    JsonMap.removeKeyUnwrapType_bind, implies_true, hid, hdoc]

theorem Change.SameDocument.deserializeChange {c c' : Change} {m m' : JsonMap}
    (h : c.SameDocument c' m m') (P : Parsers) : P.deserializeChange c' = P.deserializeChange c := by
  rw [P.deserializeChange_eq h.rawJson' h.nodup', P.deserializeChange_eq h.rawJson h.nodup,
    h.get "deleted" (by simp), h.get "id" (by simp), h.get "doc" (by simp)]

namespace ParsedChange

variable (H : Hasher) (c c' : ParsedChange)

/-- A version that has just been compared asks for no instruction. -/
theorem diffVersion_nextVersion (v : Semver) (old : Option InternalDiffLogVersionState)
    (new : Option VersionOnlyPackument) :
    c.diffVersion H v (nextVersion H old new) new = [] := by
  cases old with
  | none =>
    cases new with
    | none => rfl
    | some d => simp [nextVersion, diffVersion]
  | some old =>
    cases new with
    | none => simp [nextVersion, diffVersion]
    | some d => simp [nextVersion, diffVersion]

/-- The state that a change leaves asks for no instruction when its data come again. -/
theorem diffInstrs_nextLocal (s : LocalState) (hdata : c'.data = c.data)
    (hversions : c'.versions = c.versions) :
    c'.diffInstrs H (c.nextLocal H s).1 = some [] := by
  have hloop : (FiniteMap.unionKeys (c.nextState H s.1).versions c.versions).flatMap (fun v =>
      c'.diffVersion H v (c.nextState H s.1).versions[v]? c.versions[v]?) = [] := by
    rw [List.flatMap_eq_nil_iff]
    intro v _
    rw [c.nextState_versions H s.1 v]
    exact c'.diffVersion_nextVersion H v _ _
  change c'.updateInstrs H (c.nextState H s.1) = some []
  rw [updateInstrs, hversions, hloop, hdata]
  simp [nextState]

end ParsedChange

namespace Progress

variable {env : Env} {table : InternalDiffLogStateTable}

theorem mem_foldlM_applyDiffEntry {es : List NewDiffLogEntryWithHash} {m m' : DiffStateManager}
    {name : String} (hfold : es.foldlM DiffStateManager.applyDiffEntry m = some m')
    (hname : name ∈ m) : name ∈ m' := by
  induction es generalizing m with
  | nil =>
    cases hfold
    exact hname
  | cons e es ih =>
    rw [List.foldlM_cons, Option.bind_eq_bind, Option.bind_eq_some_iff] at hfold
    obtain ⟨m₁, hstep, hfold⟩ := hfold
    simp only [DiffStateManager.applyDiffEntry, Option.bind_eq_bind, Option.bind_eq_some_iff,
      Option.pure_def, Option.some.injEq] at hstep
    obtain ⟨_, _, _, _, rfl⟩ := hstep
    exact ih hfold (FiniteMap.mem_insert.mpr (.inr hname))

/-- A package that a change is about has been looked up afterwards. -/
theorem mem_of_processParsed {H : Hasher} {s s' : Progress} {c : ParsedChange}
    (h : s.processParsed H table c = some s') : c.packageName ∈ s'.stateManager := by
  simp only [processParsed, Option.bind_eq_bind, Option.bind_eq_some_iff, Option.pure_def,
    Option.some.injEq] at h
  obtain ⟨instrs, _, m', hfold, rfl⟩ := h
  apply mem_foldlM_applyDiffEntry hfold
  rw [FiniteMap.mem_iff_getElem?, DiffStateManager.lookupPackage_snd, if_pos rfl]
  exact ⟨_, rfl⟩

/-- After a change that has been read the same data change nothing. -/
theorem processParsed_again {H : Hasher} {s s' : Progress} (hs : s.stateManager.AllSettled table)
    {c c' : ParsedChange} (hstep : s.processParsed H table c = some s')
    (hname : c'.packageName = c.packageName) (hdata : c'.data = c.data)
    (hversions : c'.versions = c.versions) (n : ℕ) :
    processParsed H table { s' with readBytes := n } c' = some { s' with readBytes := n } := by
  obtain ⟨s₁, hs₁, hfollows⟩ := processParsed_spec (H := H) hs c
  cases hstep.symm.trans hs₁
  obtain ⟨local', hlocal'⟩ := FiniteMap.mem_iff_getElem?.mp (mem_of_processParsed hstep)
  have hnext : local' = c.nextLocal H (s.localStates table c.packageName) := by
    have hstates := congrFun hfollows.states c.packageName
    rw [localStates, DiffStateManager.localState_of_getElem? _ _ hlocal', LocalStates.after_apply]
      at hstates
    simpa using hstates
  have hlookup : s'.stateManager.lookupPackage table c.packageName =
      ((c.nextLocal H (s.localStates table c.packageName)).1, s'.stateManager) := by
    rw [DiffStateManager.lookupPackage, hlocal', hnext]
  rw [processParsed, hname]
  simp only [hlookup, c.diffInstrs_nextLocal H c' _ hdata hversions]
  simp

/-- Processing the same document again emits no entry and leaves the manager as it is. -/
theorem processChange_again (pre : List Change) (s s' : Progress) (c c' : Change) (m m' : JsonMap)
    (hrun : processAll env table Progress.start pre = .ok s)
    (hstep : s.processChange env table c = some s') (hsame : c.SameDocument c' m m') :
    s'.processChange env table c' =
      some { s' with readBytes := s'.readBytes + env.toVecLen c'.rawJson } := by
  have hsettled : s.stateManager.AllSettled table := (follows_of_processAll hrun).2.settled
  simp only [processChange, Option.bind_eq_bind, Option.bind_eq_some_iff] at hstep
  obtain ⟨parsed, hdes, hstep⟩ := hstep
  rw [processChange, hsame.deserializeChange, hdes]
  cases parsed with
  | none => rfl
  | some p =>
    obtain ⟨name, data, versions⟩ := p
    -- the byte count of the change is no part of the manager
    have hread : ({ s with readBytes := s.readBytes + env.toVecLen c.rawJson } :
        Progress).stateManager.AllSettled table := hsettled
    let parsed' : ParsedChange := ⟨c'.seq, name, data, versions⟩
    have hagain := processParsed_again hread hstep (rfl : parsed'.packageName = name)
      (rfl : parsed'.data = data) (rfl : parsed'.versions = versions)
    exact hagain (s'.readBytes + env.toVecLen c'.rawJson)

theorem processChange_again_updated : ∃ s s',
    processAll sampleEnv ∅ Progress.start [sampleChange 1 [] [("1.0.0", "a")]] = .ok s ∧
      s.processChange sampleEnv ∅ (sampleChange 2 [] [("2.0.0", "b")]) = some s' ∧
      s'.processChange sampleEnv ∅ (sampleChange 3 [] [("2.0.0", "b")]) = some s' := by
  have hsome : ((processAll sampleEnv ∅ Progress.start
      [sampleChange 1 [] [("1.0.0", "a")]]).toOption.bind fun s =>
        s.processChange sampleEnv ∅ (sampleChange 2 [] [("2.0.0", "b")])).isSome := by decide +kernel
  obtain ⟨s', hs'⟩ := Option.isSome_iff_exists.mp hsome
  obtain ⟨s, hs, hstep⟩ := Option.bind_eq_some_iff.mp hs'
  cases hrun : processAll sampleEnv ∅ Progress.start [sampleChange 1 [] [("1.0.0", "a")]] with
  | error e => simp [hrun, Except.toOption] at hs
  | ok s₀ =>
    have heq : s₀ = s := by simpa [hrun, Except.toOption] using hs
    subst heq
    exact ⟨s₀, s', rfl, hstep, processChange_again _ s₀ s' _ (sampleChange 3 [] [("2.0.0", "b")])
      _ _ hrun hstep ⟨rfl, rfl, by decide, by decide, fun _ _ => rfl⟩⟩

end Progress

end DiffLogBuilder

end NpmFollower
