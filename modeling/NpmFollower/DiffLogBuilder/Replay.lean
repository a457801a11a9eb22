import NpmFollower.DiffLogBuilder.PackageLog

/-! # Replaying the diff log

The log rebuilds the registry: after every change each package should have the
data and the live versions of its last change. Two things go wrong with a
version that was dropped. Coming back unchanged it gets no entry, and once it
came back changed it is still marked as deleted, so it is never deleted again.
-/

namespace NpmFollower.DiffLogBuilder

open Std PostgresDb

/-- What the log says about one package. -/
structure ReplayedPackage where
  data : Option PackageOnlyPackument
  live : AllVersionPackuments

namespace ReplayedPackage

def empty : ReplayedPackage := ⟨none, ∅⟩

def apply (r : ReplayedPackage) : DiffLogInstruction → ReplayedPackage
  | .createPackage data => { r with data := some data }
  | .updatePackage data => { r with data := some data }
  | .createVersion v data => { r with live := r.live.insert v data }
  | .updateVersion v data => { r with live := r.live.insert v data }
  | .deleteVersion v => { r with live := r.live.erase v }
  | .patchPackageReferences => r

theorem apply_data (r : ReplayedPackage) (instr : DiffLogInstruction) :
    (r.apply instr).data = instr.packageData.or r.data := by
  cases instr <;> rfl

theorem apply_live (r : ReplayedPackage) (instr : DiffLogInstruction) : (r.apply instr).live =
    KeyedLog.write DiffLogInstruction.version DiffLogInstruction.versionData r.live instr := by
  cases instr <;> rfl

theorem lastPackageData_singleton (instr : DiffLogInstruction) :
    lastPackageData [instr] = instr.packageData := by
  cases instr <;> rfl

theorem foldl_apply_data (r : ReplayedPackage) (instrs : List DiffLogInstruction) :
    (instrs.foldl apply r).data = (lastPackageData instrs).or r.data := by
  induction instrs using List.reverseRecOn with
  | nil => rfl
  | append_singleton instrs instr ih =>
    rw [List.foldl_append, List.foldl_cons, List.foldl_nil, apply_data, ih,
      lastPackageData_append, Option.or_assoc, lastPackageData_singleton]

theorem foldl_apply_live (r : ReplayedPackage) (instrs : List DiffLogInstruction) :
    (instrs.foldl apply r).live =
      instrs.foldl (KeyedLog.write DiffLogInstruction.version DiffLogInstruction.versionData)
        r.live := by
  induction instrs generalizing r with
  | nil => rfl
  | cons instr instrs ih => rw [List.foldl_cons, ih, apply_live, List.foldl_cons]

end ReplayedPackage

/-- The log, replayed from an empty registry. -/
def replay (es : List NewDiffLogEntryWithHash) : String → ReplayedPackage :=
  es.foldl (KeyedLog.stepAt (fun e => e.entry.packageName) fun r e => r.apply e.entry.instr)
    fun _ => .empty

theorem replay_apply (es : List NewDiffLogEntryWithHash) (name : String) :
    replay es name = (instrsOf name es).foldl ReplayedPackage.apply .empty := by
  rw [replay, KeyedLog.foldl_stepAt_apply, instrsOf, List.foldl_map]

/-- Every package as its last change has it. -/
def registryAfter (cs : List ParsedChange) (name : String) : ReplayedPackage :=
  match (cs.filter fun c => c.packageName = name).getLast? with
  | some c => ⟨some c.data, c.versions⟩
  | none => .empty

/-- After every change of a run from empty tables the log rebuilds the registry. -/
def ReplaySound (H : Hasher) (cs : List ParsedChange) : Prop :=
  ∀ pre, pre <+: cs → ∃ s,
    pre.foldlM (fun s c => s.processParsed H ∅ c) Progress.start = some s ∧
      ∀ name, replay s.newDiffEntries name = registryAfter pre name

/-- The hash tells the data of the changes apart. -/
structure InjectiveOn (H : Hasher) (cs : List ParsedChange) : Prop where
  package : Set.InjOn H.packageHash {d | ∃ c ∈ cs, c.data = d}
  version : Set.InjOn H.versionHash {d | ∃ c ∈ cs, ∃ v : Semver, c.versions[v]? = some d}

/-- A version that comes back after having been dropped has other data and is not dropped again. -/
def ReturnsOnce (history : List (Option VersionOnlyPackument)) : Prop :=
  ∀ pre d n d' post, history = pre ++ some d :: (List.replicate (n + 1) none ++ some d' :: post) →
    d ≠ d' ∧ none ∉ post

section History

/-- What `ReturnsOnce` says about the first drop of the data `d`. -/
def ReturnsAfter (d : VersionOnlyPackument) (history : List (Option VersionOnlyPackument)) : Prop :=
  ∀ n d' post, history = List.replicate (n + 1) none ++ some d' :: post → d ≠ d' ∧ none ∉ post

theorem returnsOnce_none_cons (history : List (Option VersionOnlyPackument)) :
    ReturnsOnce (none :: history) ↔ ReturnsOnce history := by
  constructor
  · rintro h pre d n d' post rfl
    exact h (none :: pre) d n d' post rfl
  · intro h pre d n d' post heq
    cases pre with
    | nil => cases heq
    | cons o pre => exact h pre d n d' post (List.cons.inj heq).2

theorem returnsOnce_some_cons (d : VersionOnlyPackument)
    (history : List (Option VersionOnlyPackument)) :
    ReturnsOnce (some d :: history) ↔ ReturnsAfter d history ∧ ReturnsOnce history := by
  constructor
  · intro h
    refine ⟨?_, ?_⟩
    · rintro n d' post rfl
      exact h [] d n d' post rfl
    · rintro pre d₁ n d' post rfl
      exact h (some d :: pre) d₁ n d' post rfl
  · rintro ⟨hafter, hrest⟩ pre d₁ n d' post heq
    cases pre with
    | nil =>
      obtain ⟨hd, htail⟩ := List.cons.inj heq
      cases hd
      exact hafter n d' post htail
    | cons o pre => exact hrest pre d₁ n d' post (List.cons.inj heq).2

theorem returnsAfter_some_cons (d d' : VersionOnlyPackument)
    (history : List (Option VersionOnlyPackument)) : ReturnsAfter d (some d' :: history) := by
  intro n d₁ post heq
  rw [List.replicate_succ] at heq
  cases heq

theorem returnsAfter_none_none_cons (d : VersionOnlyPackument)
    (history : List (Option VersionOnlyPackument)) :
    ReturnsAfter d (none :: none :: history) ↔ ReturnsAfter d (none :: history) := by
  constructor
  · intro h n d' post heq
    exact h (n + 1) d' post (by rw [List.replicate_succ, List.cons_append, heq])
  · intro h n d' post heq
    rw [List.replicate_succ, List.cons_append] at heq
    cases n with
    | zero => cases heq
    | succ n => exact h n d' post (List.cons.inj heq).2

theorem returnsAfter_none_some_cons (d d' : VersionOnlyPackument)
    (history : List (Option VersionOnlyPackument)) :
    ReturnsAfter d (none :: some d' :: history) ↔ d ≠ d' ∧ none ∉ history := by
  constructor
  · intro h
    exact h 0 d' history rfl
  · intro h n d₁ post heq
    rw [List.replicate_succ, List.cons_append] at heq
    cases n with
    | zero =>
      cases heq
      exact h
    | succ n => cases heq

theorem returnsOnce_of_none_not_mem {history : List (Option VersionOnlyPackument)}
    (h : none ∉ history) : ReturnsOnce history := by
  rintro pre d n d' post rfl
  exact absurd (by simp [List.replicate_succ]) h

variable (H : Hasher) (v : Semver)

/-- The live data of a version after one change. -/
def liveAfter (old : Option InternalDiffLogVersionState) (live new : Option VersionOnlyPackument) :
    Option VersionOnlyPackument :=
  match versionInstr H v old new with
  | some instr => instr.versionData
  | none => live

/-- The live data of a version after its history. -/
def liveFrom (old : Option InternalDiffLogVersionState) (live : Option VersionOnlyPackument)
    (history : List (Option VersionOnlyPackument)) : Option VersionOnlyPackument :=
  match (versionLog H v old history).getLast? with
  | some instr => instr.versionData
  | none => live

/-- After every change the live data of the version are the ones the change has. -/
def LiveSound (old : Option InternalDiffLogVersionState) (live : Option VersionOnlyPackument) :
    List (Option VersionOnlyPackument) → Prop
  | [] => True
  | new :: history => liveAfter H v old live new = new ∧
      LiveSound (ParsedChange.nextVersion H old new) new history

variable {H v}

theorem liveFrom_cons (old : Option InternalDiffLogVersionState)
    (live new : Option VersionOnlyPackument) (history : List (Option VersionOnlyPackument)) :
    liveFrom H v old live (new :: history) =
      liveFrom H v (ParsedChange.nextVersion H old new) (liveAfter H v old live new) history := by
  rw [liveFrom, liveFrom, versionLog, List.getLast?_append, liveAfter]
  cases versionInstr H v old new <;> cases (versionLog H v _ history).getLast? <;> rfl

theorem liveSound_iff (old : Option InternalDiffLogVersionState) (live : Option VersionOnlyPackument)
    (history : List (Option VersionOnlyPackument)) :
    LiveSound H v old live history ↔
      ∀ h, h <+: history → liveFrom H v old live h = h.getLast?.getD live := by
  induction history generalizing old live with
  | nil =>
    refine iff_of_true trivial fun h hpre => ?_
    rw [List.prefix_nil.mp hpre]
    rfl
  | cons new history ih =>
    have hlast (h : List (Option VersionOnlyPackument)) :
        (new :: h).getLast?.getD live = h.getLast?.getD new := by
      rw [List.getLast?_cons]
      rfl
    have hone : liveFrom H v old live [new] = liveAfter H v old live new := liveFrom_cons ..
    rw [LiveSound, ih]
    constructor
    · rintro ⟨hlive, hrest⟩ h hpre
      cases h with
      | nil => rfl
      | cons o h =>
        obtain ⟨rfl, htail⟩ := List.cons_prefix_cons.mp hpre
        rw [liveFrom_cons, hlive, hlast]
        exact hrest h htail
    · intro hsound
      have hlive : liveAfter H v old live new = new :=
        hone.symm.trans (hsound [new] (by simp))
      refine ⟨hlive, fun h hpre => ?_⟩
      have hcons := hsound (new :: h) (List.cons_prefix_cons.mpr ⟨rfl, hpre⟩)
      rwa [liveFrom_cons, hlive, hlast] at hcons

variable {S : Set VersionOnlyPackument} (hS : Set.InjOn H.versionHash S)
include hS

/-- A version that is live and still marked as deleted is followed as long as it is not dropped. -/
theorem liveSound_tombstone {d : VersionOnlyPackument} (hd : d ∈ S)
    {history : List (Option VersionOnlyPackument)} (hmem : ∀ d', some d' ∈ history → d' ∈ S) :
    LiveSound H v (some ⟨H.versionHash d, true⟩) (some d) history ↔ none ∉ history := by
  induction history generalizing d with
  | nil => simp [LiveSound]
  | cons o history ih =>
    cases o with
    | none => simp [LiveSound, liveAfter, versionInstr]
    | some d' =>
      have hd' : d' ∈ S := hmem d' List.mem_cons_self
      have hrest := ih hd' fun d'' h => hmem d'' (List.mem_cons_of_mem _ h)
      have hlive : liveAfter H v (some ⟨H.versionHash d, true⟩) (some d) (some d') = some d' := by
        by_cases heq : H.versionHash d = H.versionHash d'
        · simp [liveAfter, versionInstr, hS hd hd' heq]
        · simp [liveAfter, versionInstr, heq, DiffLogInstruction.versionData]
      rw [LiveSound, hlive, and_iff_right rfl]
      refine Iff.trans hrest ?_
      simp

/-- A dropped version is followed when it stays away or comes back changed, once. -/
theorem liveSound_dropped {d : VersionOnlyPackument} (hd : d ∈ S)
    {history : List (Option VersionOnlyPackument)} (hmem : ∀ d', some d' ∈ history → d' ∈ S) :
    LiveSound H v (some ⟨H.versionHash d, true⟩) none history ↔
      ReturnsAfter d (none :: history) ∧ ReturnsOnce history := by
  induction history with
  | nil =>
    refine iff_of_true trivial ⟨fun n d' post heq => ?_, returnsOnce_of_none_not_mem (by simp)⟩
    rw [List.replicate_succ, List.cons_append] at heq
    cases n <;> cases heq
  | cons o history ih =>
    have hrest := fun d' (h : some d' ∈ history) => hmem d' (List.mem_cons_of_mem _ h)
    cases o with
    | none =>
      rw [returnsAfter_none_none_cons, returnsOnce_none_cons, ← ih hrest]
      simp [LiveSound, liveAfter, versionInstr, ParsedChange.nextVersion]
    | some d' =>
      have hd' : d' ∈ S := hmem d' List.mem_cons_self
      rw [returnsAfter_none_some_cons]
      have hiff := liveSound_tombstone (v := v) hS hd' hrest
      by_cases heq : d = d'
      · subst heq
        simp [LiveSound, liveAfter, versionInstr]
      · have hhash : H.versionHash d ≠ H.versionHash d' := fun h => heq (hS hd hd' h)
        have honce : none ∉ history → ReturnsOnce (some d' :: history) := fun h =>
          returnsOnce_of_none_not_mem (by simpa using h)
        simp only [LiveSound, liveAfter, versionInstr, ne_eq, hhash, not_false_eq_true, if_true,
          DiffLogInstruction.versionData, ParsedChange.nextVersion, true_and, hiff, heq]
        exact ⟨fun h => ⟨h, honce h⟩, fun h => h.1⟩

theorem liveSound_live {d : VersionOnlyPackument} (hd : d ∈ S)
    {history : List (Option VersionOnlyPackument)} (hmem : ∀ d', some d' ∈ history → d' ∈ S) :
    LiveSound H v (some ⟨H.versionHash d, false⟩) (some d) history ↔
      ReturnsOnce (some d :: history) := by
  induction history generalizing d with
  | nil => exact iff_of_true trivial (returnsOnce_of_none_not_mem (by simp))
  | cons o history ih =>
    have hrest := fun d' (h : some d' ∈ history) => hmem d' (List.mem_cons_of_mem _ h)
    rw [returnsOnce_some_cons]
    cases o with
    | none =>
      rw [returnsOnce_none_cons, ← liveSound_dropped (v := v) hS hd hrest]
      simp [LiveSound, liveAfter, versionInstr, ParsedChange.nextVersion,
        DiffLogInstruction.versionData]
    | some d' =>
      have hd' : d' ∈ S := hmem d' List.mem_cons_self
      have hlive : liveAfter H v (some ⟨H.versionHash d, false⟩) (some d) (some d') = some d' := by
        by_cases heq : H.versionHash d = H.versionHash d'
        · simp [liveAfter, versionInstr, hS hd hd' heq]
        · simp [liveAfter, versionInstr, heq, DiffLogInstruction.versionData]
      rw [LiveSound, hlive, and_iff_right rfl, and_iff_right (returnsAfter_some_cons d d' history),
        ← ih hd' hrest]
      rfl

theorem liveSound_unknown {history : List (Option VersionOnlyPackument)}
    (hmem : ∀ d', some d' ∈ history → d' ∈ S) :
    LiveSound H v none none history ↔ ReturnsOnce history := by
  induction history with
  | nil => exact iff_of_true trivial (returnsOnce_of_none_not_mem (by simp))
  | cons o history ih =>
    have hrest := fun d' (h : some d' ∈ history) => hmem d' (List.mem_cons_of_mem _ h)
    cases o with
    | none =>
      rw [returnsOnce_none_cons, ← ih hrest]
      simp [LiveSound, liveAfter, versionInstr, ParsedChange.nextVersion]
    | some d =>
      rw [← liveSound_live (v := v) hS (hmem d List.mem_cons_self) hrest]
      simp [LiveSound, liveAfter, versionInstr, ParsedChange.nextVersion,
        DiffLogInstruction.versionData]

end History

section Run

variable {H : Hasher}

theorem replayed_live (cs : List ParsedChange) (v : Semver) :
    ((packageLog H none cs).foldl ReplayedPackage.apply .empty).live[v]? =
      liveFrom H v none none (historyOf v cs) := by
  rw [ReplayedPackage.foldl_apply_live, KeyedLog.getElem?_foldl_write, KeyedLog.lastAbout,
    filter_packageLog_none, liveFrom]
  cases (versionLog H v none (historyOf v cs)).getLast? with
  | none => exact ExtTreeMap.getElem?_empty
  | some instr => rfl

theorem replayed_data (cs : List ParsedChange)
    (hinj : Set.InjOn H.packageHash {d | ∃ c ∈ cs, c.data = d}) :
    ((packageLog H none cs).foldl ReplayedPackage.apply .empty).data =
      cs.getLast?.map fun c => c.data := by
  obtain ⟨hhash, hmem⟩ := lastPackageData_packageLog (H := H) cs
  rw [ReplayedPackage.foldl_apply_data, ReplayedPackage.empty, Option.or_none]
  cases hlast : cs.getLast? with
  | none => simpa [hlast] using hhash
  | some c =>
    rw [hlast] at hhash
    obtain ⟨d, hd, hdc⟩ := Option.map_eq_some_iff.mp hhash
    rw [hd, hinj (hmem d hd) ⟨c, List.mem_of_getLast? hlast, rfl⟩ hdc]
    rfl

/-- The package is rebuilt when each of its versions is. -/
theorem replayed_eq_iff {cs : List ParsedChange} (name : String) (hinj : InjectiveOn H cs) :
    (packageLog H none (cs.filter fun c => c.packageName = name)).foldl ReplayedPackage.apply .empty =
        registryAfter cs name ↔
      ∀ v, liveFrom H v none none (historyOf v (cs.filter fun c => c.packageName = name)) =
        (historyOf v (cs.filter fun c => c.packageName = name)).getLast?.getD none := by
  have hdata := replayed_data (H := H) (cs.filter fun c => c.packageName = name)
    (hinj.package.mono (by rintro d ⟨c, hc, hd⟩; exact ⟨c, (List.mem_filter.mp hc).1, hd⟩))
  have hafter : (registryAfter cs name).data =
      (cs.filter fun c => c.packageName = name).getLast?.map fun c => c.data := by
    rw [registryAfter]
    cases (cs.filter fun c => c.packageName = name).getLast? <;> rfl
  have hlive (v : Semver) : (registryAfter cs name).live[v]? =
      (historyOf v (cs.filter fun c => c.packageName = name)).getLast?.getD none := by
    rw [registryAfter, historyOf, List.getLast?_map]
    cases (cs.filter fun c => c.packageName = name).getLast? with
    | none => exact ExtTreeMap.getElem?_empty
    | some c => rfl
  simp only [← replayed_live, ← hlive]
  generalize (packageLog H none _).foldl ReplayedPackage.apply .empty = r at *
  generalize registryAfter cs name = r' at *
  obtain ⟨data, live⟩ := r
  obtain ⟨data', live'⟩ := r'
  cases hdata.trans hafter.symm
  constructor
  · rintro ⟨⟩ v
    rfl
  · intro h
    cases ExtTreeMap.ext_getElem? h
    rfl

/-- The log rebuilds the registry after every change exactly when each version of each package
that comes back comes back changed, and is not dropped again. -/
theorem replaySound_iff (H : Hasher) (cs : List ParsedChange) (hinj : InjectiveOn H cs) :
    ReplaySound H cs ↔
      ∀ name v, ReturnsOnce (historyOf v (cs.filter fun c => c.packageName = name)) := by
  have hinit {pre : List ParsedChange} (hpre : pre <+: cs) : InjectiveOn H pre := by
    refine ⟨hinj.package.mono ?_, hinj.version.mono ?_⟩
    all_goals
      rintro d ⟨c, hc, hd⟩
      exact ⟨c, hpre.subset hc, hd⟩
  have hpackage (pre : List ParsedChange) (hpre : pre <+: cs) :
      (∃ s, pre.foldlM (fun s c => s.processParsed H ∅ c) Progress.start = some s ∧
        ∀ name, replay s.newDiffEntries name = registryAfter pre name) ↔
      ∀ name v, liveFrom H v none none (historyOf v (pre.filter fun c => c.packageName = name)) =
        (historyOf v (pre.filter fun c => c.packageName = name)).getLast?.getD none := by
    obtain ⟨s, hrun, hfollows⟩ := Progress.foldlM_processParsed (H := H) (s := Progress.start)
      (DiffStateManager.new_allSettled ∅) pre
    simp only [hrun, Option.some.injEq, exists_eq_left', replay_apply, hfollows.packageLog]
    exact forall_congr' fun name => replayed_eq_iff name (hinit hpre)
  have hsound (name : String) (v : Semver) :
      ReturnsOnce (historyOf v (cs.filter fun c => c.packageName = name)) ↔
        ∀ pre, pre <+: cs →
          liveFrom H v none none (historyOf v (pre.filter fun c => c.packageName = name)) =
            (historyOf v (pre.filter fun c => c.packageName = name)).getLast?.getD none := by
    rw [← liveSound_unknown (v := v) hinj.version, liveSound_iff]
    · constructor
      · intro h pre hpre
        exact h _ ((hpre.filter _).map _)
      · intro h history hhistory
        obtain ⟨ds, hds, rfl⟩ := List.prefix_map_iff.mp hhistory
        obtain ⟨pre, hpre, rfl⟩ := List.prefix_filter_iff.mp hds
        exact h pre hpre
    · intro d hd
      obtain ⟨c, hc, hcd⟩ := List.mem_map.mp hd
      exact ⟨c, (List.mem_filter.mp hc).1, v, hcd⟩
  rw [ReplaySound]
  simp only [hsound]
  constructor
  · intro h name v pre hpre
    exact (hpackage pre hpre).mp (h pre hpre) name v
  · intro h pre hpre
    exact (hpackage pre hpre).mpr fun name v => h name v pre hpre

theorem injectiveOn_sampleParsed (l : List (ℤ × List (Semver × String))) :
    InjectiveOn sampleHasher (l.map fun e => sampleParsed e.1 e.2) where
  package := by
    rintro _ ⟨c, hc, rfl⟩ _ ⟨c', hc', rfl⟩ _
    obtain ⟨e, _, rfl⟩ := List.mem_map.mp hc
    obtain ⟨e', _, rfl⟩ := List.mem_map.mp hc'
    rfl
  version := by
    rintro d ⟨c, hc, v, hd⟩ d' ⟨c', hc', v', hd'⟩ hhash
    obtain ⟨e, _, rfl⟩ := List.mem_map.mp hc
    obtain ⟨e', _, rfl⟩ := List.mem_map.mp hc'
    rw [sampleParsed, ExtTreeMap.getElem?_map] at hd hd'
    obtain ⟨url, _, rfl⟩ := Option.map_eq_some_iff.mp hd
    obtain ⟨url', _, rfl⟩ := Option.map_eq_some_iff.mp hd'
    exact congrArg sampleVersion hhash

theorem replaySound_iff_changed :
    ReplaySound sampleHasher
        [sampleParsed 1 [(⟨1, 0, 0, [], []⟩, "a")], sampleParsed 2 [(⟨1, 0, 0, [], []⟩, "b")]] ↔
      ∀ name v, ReturnsOnce (historyOf v
        ([sampleParsed 1 [(⟨1, 0, 0, [], []⟩, "a")],
          sampleParsed 2 [(⟨1, 0, 0, [], []⟩, "b")]].filter fun c => c.packageName = name)) :=
  replaySound_iff sampleHasher _ (injectiveOn_sampleParsed
    [(1, [(⟨1, 0, 0, [], []⟩, "a")]), (2, [(⟨1, 0, 0, [], []⟩, "b")])])

/-- A version that is dropped and comes back unchanged is not live in the log. -/
theorem not_replaySound : ∃ cs, InjectiveOn sampleHasher cs ∧ ¬ReplaySound sampleHasher cs := by
  refine ⟨[(1, [(⟨1, 0, 0, [], []⟩, "a")]), (2, []), (3, [(⟨1, 0, 0, [], []⟩, "a")])].map
    fun e => sampleParsed e.1 e.2, injectiveOn_sampleParsed _, fun hsound => ?_⟩
  obtain ⟨s, hrun, hreplay⟩ := hsound _ (List.prefix_refl _)
  let v : Semver := ⟨1, 0, 0, [], []⟩
  have hlive := congrArg (fun r => r.live[v]?.isSome) (hreplay "p")
  have hdead := congrArg (Option.map fun s => (replay s.newDiffEntries "p").live[v]?.isSome) hrun
  rw [Option.map_some, hlive] at hdead
  revert hdead
  decide +kernel

end Run

end NpmFollower.DiffLogBuilder
