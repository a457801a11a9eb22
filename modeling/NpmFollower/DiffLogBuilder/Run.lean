import NpmFollower.DiffLogBuilder.HashState

/-! # Runs of the diff log builder

Between two changes the builder is described by the local state of every
package: its entry in the manager, or what a lookup would load. A change moves
the state of its own package and emits the instructions that this state asks
for, so a run is a fold over the changes that have been read.
-/

namespace NpmFollower

open Std PostgresDb

namespace PostgresDb.DiffStateManager

variable (m : DiffStateManager) (table : InternalDiffLogStateTable)

/-- The entry of a package in the manager, or the one that a lookup would load. -/
def localState (name : String) : LocalState := m[name]?.getD (LocalState.loaded table[name]?)

theorem lookupPackage_fst (name : String) :
    (m.lookupPackage table name).1 = (m.localState table name).1 := by
  unfold lookupPackage localState
  cases m[name]? <;> rfl

theorem lookupPackage_snd (name name' : String) :
    (m.lookupPackage table name).2[name']? =
      if name = name' then some (m.localState table name) else m[name']? := by
  unfold lookupPackage localState
  cases h : m[name]? with
  | some s =>
    split_ifs with hn
    · rw [← hn, h]
      rfl
    · rfl
  | none =>
    rw [FiniteMap.getElem?_insert]
    rfl

theorem localState_of_getElem? {name : String} {s : LocalState} (h : m[name]? = some s) :
    m.localState table name = s := by
  rw [localState, h, Option.getD_some]

/-- Every package is settled, looked up or not. -/
def AllSettled : Prop := ∀ name : String, (m.localState table name).Settled table[name]?

theorem new_localState (name : String) : new.localState table name = LocalState.loaded table[name]? :=
  rfl

theorem new_allSettled : new.AllSettled table := fun _ => LocalState.settled_loaded _

/-- After the flush of a call every row is the flushed one of its local state. -/
theorem flushToDb_localState {m : DiffStateManager} {table : InternalDiffLogStateTable}
    (hm : m.AllSettled table) : ∃ table', m.flushToDb table = some table' ∧
      ∀ name : String, table'[name]? = (m.localState table name).flushed name table[name]? := by
  have hsettled : m.Settled table := fun name s hs => by
    simpa only [localState_of_getElem? m table hs] using hm name
  obtain ⟨table', hflush, hrows⟩ := flushToDb_spec hsettled
  refine ⟨table', hflush, fun name => ?_⟩
  rw [hrows, localState]
  cases m[name]? <;> rfl

/-- Entries of one package are applied to its local state alone. -/
theorem foldlM_applyDiffEntry {name : String} {s s' : LocalState}
    (es : List NewDiffLogEntryWithHash) (hes : ∀ e ∈ es, e.entry.packageName = name)
    {m : DiffStateManager} (hm : m[name]? = some s) (happly : s.applyAll es = some s') :
    ∃ m', es.foldlM applyDiffEntry m = some m' ∧
      ∀ name' : String, m'[name']? = if name = name' then some s' else m[name']? := by
  induction es generalizing m s with
  | nil =>
    cases happly
    refine ⟨m, rfl, fun name' => ?_⟩
    split_ifs with hn
    · exact hn ▸ hm
    · rfl
  | cons e es ih =>
    have hname : e.entry.packageName = name := hes e List.mem_cons_self
    rw [LocalState.applyAll_cons] at happly
    obtain ⟨s₁, hs₁, happly⟩ := Option.bind_eq_some_iff.mp happly
    have hstep : applyDiffEntry m e = some (m.insert name s₁) := by
      simp [applyDiffEntry, hname, hm, hs₁]
    obtain ⟨m', hfold, hm'⟩ := ih (fun e' he' => hes e' (List.mem_cons_of_mem _ he'))
      (ExtTreeMap.getElem?_insert_self (t := m)) happly
    refine ⟨m', by rw [List.foldlM_cons, hstep]; exact hfold, fun name' => ?_⟩
    rw [hm', FiniteMap.getElem?_insert]
    split_ifs <;> rfl

end PostgresDb.DiffStateManager

namespace DiffLogBuilder

namespace ParsedChange

variable (H : Hasher) (c : ParsedChange)

/-- The entries of a change, for the hash state of its package. -/
def emitted (st : Option InternalDiffLogPackageState) : List NewDiffLogEntryWithHash :=
  ((c.diffInstrs H st).getD []).map Prod.fst

theorem packageName_of_mem_diffVersion {v : Semver} {old : Option InternalDiffLogVersionState}
    {new : Option VersionOnlyPackument} {e : SizedEntry} (he : e ∈ c.diffVersion H v old new) :
    e.1.entry.packageName = c.packageName := by
  cases old <;> cases new <;> simp only [diffVersion, generateCreateVersionInstr] at he
  · cases he
  · cases List.mem_singleton.mp he
    rfl
  · split_ifs at he
    · cases he
    · cases List.mem_singleton.mp he
      rfl
  · split_ifs at he
    · cases List.mem_singleton.mp he
      rfl
    · cases he

/-- All entries of a change are entries of its package. -/
theorem packageName_of_mem_emitted {st : Option InternalDiffLogPackageState}
    {e : NewDiffLogEntryWithHash} (he : e ∈ c.emitted H st) :
    e.entry.packageName = c.packageName := by
  obtain ⟨d, hd, rfl⟩ := List.mem_map.mp he
  cases st with
  | none =>
    simp only [diffInstrs, Option.getD_some, createInstrs, List.mem_append, List.mem_map,
      List.mem_singleton] at hd
    rcases hd with ((rfl | ⟨x, _, rfl⟩) | hd) | rfl
    · rfl
    · rfl
    · split_ifs at hd
      · cases List.mem_singleton.mp hd
        rfl
      · cases hd
    · rfl
  | some st =>
    cases hash : st.packagePackHash with
    | none => simp [diffInstrs, updateInstrs, hash] at hd
    | some packageHash =>
      simp only [diffInstrs, updateInstrs, hash, Option.bind_eq_bind, Option.bind_some,
        Option.pure_def, Option.getD_some, List.mem_append, List.mem_flatMap] at hd
      rcases hd with ⟨v, _, hd⟩ | hd
      · exact c.packageName_of_mem_diffVersion H hd
      · split_ifs at hd
        · cases List.mem_singleton.mp hd
          rfl
        · cases hd

end ParsedChange

/-- The local states of all packages. -/
abbrev LocalStates := String → LocalState

variable (H : Hasher)

def LocalStates.step (L : LocalStates) (c : ParsedChange) : LocalStates :=
  Function.update L c.packageName (c.nextLocal H (L c.packageName))

def LocalStates.after (L : LocalStates) (cs : List ParsedChange) : LocalStates :=
  cs.foldl (LocalStates.step H) L

/-- The entries of a run. -/
def LocalStates.emitted : LocalStates → List ParsedChange → List NewDiffLogEntryWithHash
  | _, [] => []
  | L, c :: cs => c.emitted H (L c.packageName).1 ++ LocalStates.emitted (LocalStates.step H L c) cs

namespace LocalStates

theorem after_append (L : LocalStates) (cs ds : List ParsedChange) :
    after H L (cs ++ ds) = after H (after H L cs) ds :=
  List.foldl_append

theorem emitted_append (L : LocalStates) (cs ds : List ParsedChange) :
    emitted H L (cs ++ ds) = emitted H L cs ++ emitted H (after H L cs) ds := by
  induction cs generalizing L with
  | nil => rfl
  | cons c cs ih =>
    rw [List.cons_append, emitted, emitted, ih, List.append_assoc]
    rfl

/-- Only its own changes move a package. -/
theorem after_apply (L : LocalStates) (cs : List ParsedChange) (name : String) :
    after H L cs name =
      (cs.filter fun c => c.packageName = name).foldl (fun s c => c.nextLocal H s) (L name) := by
  induction cs generalizing L with
  | nil => rfl
  | cons c cs ih =>
    change after H (step H L c) cs name = _
    rw [ih, List.filter_cons]
    by_cases hc : c.packageName = name
    · subst hc
      simp [step]
    · simp [step, hc, Function.update_of_ne (Ne.symm hc)]

/-- The flags do not influence the states nor the entries. -/
theorem emitted_congr {L L' : LocalStates} (h : ∀ name, (L name).1 = (L' name).1)
    (cs : List ParsedChange) : emitted H L cs = emitted H L' cs := by
  induction cs generalizing L L' with
  | nil => rfl
  | cons c cs ih =>
    have hstep (name : String) : (step H L c name).1 = (step H L' c name).1 := by
      by_cases hn : name = c.packageName
      · subst hn
        simp [step, ParsedChange.nextLocal, h]
      · simp [step, hn, h]
    rw [emitted, emitted, h, ih hstep]

end LocalStates

namespace Progress

variable (table : InternalDiffLogStateTable)

def localStates (s : Progress) : LocalStates := s.stateManager.localState table

/-- The progress `s'` is `s` after the changes `cs` of a call on `table`. -/
structure Follows (s : Progress) (cs : List ParsedChange) (s' : Progress) : Prop where
  settled : s'.stateManager.AllSettled table
  states : s'.localStates table = LocalStates.after H (s.localStates table) cs
  entries : s'.newDiffEntries = s.newDiffEntries ++ LocalStates.emitted H (s.localStates table) cs

variable {H table}

theorem Follows.nil {s : Progress} (hs : s.stateManager.AllSettled table) :
    s.Follows H table [] s :=
  ⟨hs, rfl, (List.append_nil _).symm⟩

theorem Follows.trans {s s' s'' : Progress} {cs ds : List ParsedChange}
    (h : s.Follows H table cs s') (h' : s'.Follows H table ds s'') :
    s.Follows H table (cs ++ ds) s'' where
  settled := h'.settled
  states := by rw [h'.states, h.states, LocalStates.after_append]
  entries := by
    rw [h'.entries, h.entries, h.states, LocalStates.emitted_append, List.append_assoc]

/-- A change that has been read never panics. -/
theorem processParsed_spec {s : Progress} (hs : s.stateManager.AllSettled table) (c : ParsedChange) :
    ∃ s', s.processParsed H table c = some s' ∧ s.Follows H table [c] s' := by
  have hsettled := hs c.packageName
  obtain ⟨instrs, hinstrs, happly⟩ := c.applyAll_diffInstrs H hsettled
  have hemitted : c.emitted H (s.localStates table c.packageName).1 = instrs.map Prod.fst := by
    rw [ParsedChange.emitted, localStates, hinstrs, Option.getD_some]
  obtain ⟨m', hfold, hm'⟩ := DiffStateManager.foldlM_applyDiffEntry
    (instrs.map Prod.fst) (m := (s.stateManager.lookupPackage table c.packageName).2)
    (fun e he => c.packageName_of_mem_emitted H (hemitted ▸ he))
    (by rw [DiffStateManager.lookupPackage_snd, if_pos rfl]) happly
  have hlocal : m'.localState table = LocalStates.after H (s.localStates table) [c] := by
    funext name
    change _ = LocalStates.step H _ c name
    rw [DiffStateManager.localState, hm', DiffStateManager.lookupPackage_snd]
    by_cases hn : c.packageName = name
    · subst hn
      simp [LocalStates.step, localStates]
    · simp [hn, LocalStates.step, Function.update_of_ne (Ne.symm hn), localStates,
        DiffStateManager.localState]
  let s' : Progress := ⟨m', s.newDiffEntries ++ instrs.map Prod.fst, s.readBytes,
    s.writeBytes + (instrs.map Prod.snd).sum⟩
  refine ⟨s', ?_, ?_, hlocal, ?_⟩
  · simp only [processParsed, DiffStateManager.lookupPackage_fst, hinstrs, Option.bind_eq_bind,
      Option.bind_some, hfold, Option.pure_def, s']
  · intro name
    change (m'.localState table name).Settled _
    rw [hlocal, LocalStates.after_apply]
    by_cases hn : c.packageName = name
    · subst hn
      simpa [localStates] using c.nextLocal_settled H hsettled
    · simpa [hn, localStates] using hs name
  · simp [LocalStates.emitted, hemitted, s']

/-- A run over changes that have been read never panics. -/
theorem foldlM_processParsed {s : Progress} (hs : s.stateManager.AllSettled table)
    (cs : List ParsedChange) :
    ∃ s', cs.foldlM (fun s c => s.processParsed H table c) s = some s' ∧
      s.Follows H table cs s' := by
  induction cs generalizing s with
  | nil => exact ⟨s, rfl, .nil hs⟩
  | cons c cs ih =>
    obtain ⟨s₁, hstep, hfollows⟩ := processParsed_spec (H := H) hs c
    obtain ⟨s', hrun, htail⟩ := ih hfollows.settled
    refine ⟨s', ?_, hfollows.trans htail⟩
    rw [List.foldlM_cons, hstep]
    exact hrun

end Progress

/-- A change as it is read; the outer `none` is a panic, the inner one a skipped change. -/
def Change.parse (env : Env) (c : Change) : Option (Option ParsedChange) :=
  (env.parsers.deserializeChange c).map fun r => r.map fun p => ⟨c.seq, p.1, p.2.1, p.2.2⟩

/-- The changes of a batch that are not skipped. -/
def parsedChanges (env : Env) (cs : List Change) : List ParsedChange :=
  cs.filterMap fun c => (c.parse env).join

/-- The changes of one package in a batch. -/
def changesOf (env : Env) (cs : List Change) (name : String) : List ParsedChange :=
  (parsedChanges env cs).filter fun c => c.packageName = name

theorem parsedChanges_append (env : Env) (cs ds : List Change) :
    parsedChanges env (cs ++ ds) = parsedChanges env cs ++ parsedChanges env ds :=
  List.filterMap_append

variable {table : InternalDiffLogStateTable}

/-- A call gets through its changes exactly when all of them can be read. -/
theorem processAll_spec (env : Env) {s : Progress} (hs : s.stateManager.AllSettled table) (cs : List Change) :
    if ∀ c ∈ cs, (c.parse env).isSome then
      ∃ s', processAll env table s cs = .ok s' ∧ s.Follows env.hasher table (parsedChanges env cs) s'
    else ∃ e, processAll env table s cs = .error e := by
  induction cs generalizing s with
  | nil => simpa using ⟨s, rfl, .nil hs⟩
  | cons c cs ih =>
    cases hc : c.parse env with
    | none =>
      have hdes : env.parsers.deserializeChange c = none := by simpa [Change.parse] using hc
      rw [if_neg (by simp [hc])]
      exact ⟨_, by simp only [processAll, Progress.processChange, hdes, Option.bind_eq_bind,
        Option.bind_none]; rfl⟩
    | some r =>
      -- the byte count of the change is no part of its local state
      have hbytes (n : ℕ) : ({ s with readBytes := n } : Progress).stateManager.AllSettled table := hs
      obtain ⟨s₁, hstep, hfollows⟩ : ∃ s₁, s.processChange env table c = some s₁ ∧
          s.Follows env.hasher table r.toList s₁ := by
        obtain ⟨p, hdes, hp⟩ := Option.map_eq_some_iff.mp hc
        cases p with
        | none =>
          cases hp
          refine ⟨_, by simp only [Progress.processChange, hdes, Option.bind_eq_bind,
            Option.bind_some]; rfl, ?_⟩
          exact ⟨hs, rfl, (List.append_nil _).symm⟩
        | some p =>
          cases hp
          obtain ⟨s₁, hstep, hfollows⟩ := Progress.processParsed_spec (H := env.hasher)
            (hbytes (s.readBytes + env.toVecLen c.rawJson)) ⟨c.seq, p.1, p.2.1, p.2.2⟩
          refine ⟨s₁, ?_, hfollows.settled, hfollows.states, hfollows.entries⟩
          simpa only [Progress.processChange, hdes, Option.bind_eq_bind, Option.bind_some] using hstep
      have hall : (∀ c' ∈ c :: cs, (Change.parse env c').isSome) ↔
          ∀ c' ∈ cs, (Change.parse env c').isSome := by simp [hc]
      have hparsed : parsedChanges env (c :: cs) = r.toList ++ parsedChanges env cs := by
        cases r <;> simp [parsedChanges, hc]
      have htail := ih hfollows.settled
      rw [hparsed]
      simp only [hall, processAll, hstep]
      split_ifs at htail ⊢ with h
      · obtain ⟨s', hrun, htail⟩ := htail
        exact ⟨s', hrun, hfollows.trans htail⟩
      · exact htail

/-- A call that gets through its changes has read all of them. -/
theorem follows_of_processAll {env : Env} {cs : List Change} {s : Progress}
    (hrun : processAll env table Progress.start cs = .ok s) :
    (∀ c ∈ cs, (c.parse env).isSome) ∧
      Progress.start.Follows env.hasher table (parsedChanges env cs) s := by
  have hspec := processAll_spec env (s := Progress.start)
    (DiffStateManager.new_allSettled table) cs
  split_ifs at hspec with hparse
  · obtain ⟨s', hrun', hfollows⟩ := hspec
    cases hrun.symm.trans hrun'
    exact ⟨hparse, hfollows⟩
  · obtain ⟨e, he⟩ := hspec
    cases hrun.symm.trans he

end DiffLogBuilder

end NpmFollower
