import NpmFollower.Library.Runs
import NpmFollower.DownloadMetrics.InsertPackages

/-! # No package is lost

Behind its place the process owes every normal package a row, a member of the set or
the answer that it does not exist. Two steps can break this: the removal from the set
before the row is committed, and a commit past rows that an earlier one lost.
-/

namespace NpmFollower.DownloadMetrics

open PostgresDb

/-- There is a package with this id, with normal metadata. -/
def Wanted (packages : List Package) (id : ℤ) : Prop :=
  ∃ pkg, maybeGetPackage packages id = some pkg ∧ hasNormalMetadata pkg

/-- The package has a row, is rate-limited or was reported. -/
def Store.Kept (s : Store) (id : ℤ) : Prop :=
  id ∈ s.postgres.metrics ∨ (∃ pkg ∈ s.rateLimited, pkg.id = id) ∨ id ∈ s.reported

def KeepsPackages (packages : List Package) (s : Store) : Prop :=
  ∀ id, Wanted packages id → id < s.place → s.Kept id

/-- The next package is behind the saved place, and the set is all that remembers it. -/
def RemovesLast (packages : List Package) (s : State) (a : Action) : Prop :=
  ∃ b pkg toRemove lost, a = .remove ∧
    s.process = some ⟨.inserting b (pkg :: toRemove), lost⟩ ∧
    Wanted packages pkg.id ∧ pkg.id < s.store.place ∧ pkg.id ∉ s.store.postgres.metrics ∧
    pkg.id ∉ s.store.reported ∧ ∀ other ∈ s.store.rateLimited, other.id = pkg.id → other = pkg

/-- A package that an earlier COMMIT lost is behind the new place and still without a row. -/
def PassesLost (packages : List Package) (s : State) (a : Action) : Prop :=
  ∃ b lost id, a = .commit none ∧ s.process = some ⟨.inserting b [], lost⟩ ∧
    Wanted packages id ∧ id ∈ lost ∧ id < b.chunkPkgId ∧ ¬ s.store.Kept id ∧
    id ∉ b.downloadMetrics.map Package.id

def LosesPackage (packages : List Package) (s : State) (a : Action) : Prop :=
  RemovesLast packages s a ∨ PassesLost packages s a

namespace Phase

def chunkPkgId : Phase → ℤ
  | .scanning chunkPkgId _ _ => chunkPkgId
  | .querying b _ _ => b.chunkPkgId
  | .marking b _ _ => b.chunkPkgId
  | .inserting b _ => b.chunkPkgId

/-- The packages that the turn is about. -/
def pending : Phase → List Package
  | .scanning _ normalPackages scopedPackages => normalPackages ++ scopedPackages
  | .querying b scopedHandles bulk => b.downloadMetrics ++ scopedHandles ++ bulk
  | .marking b _ pkgs => b.downloadMetrics ++ pkgs
  | .inserting b _ => b.downloadMetrics

/-- What the phases know of their packages. -/
def Sound (s : Store) : Phase → Prop
  | .marking _ .remove pkgs => ∀ pkg ∈ pkgs, pkg.id ∈ s.reported
  | .inserting b toRemove => ∀ pkg ∈ toRemove, pkg ∈ b.downloadMetrics
  | _ => True

end Phase

/-- The package is kept, part of the turn or lost. -/
def Accounted (s : Store) (p : Process) (id : ℤ) : Prop :=
  s.Kept id ∨ (∃ pkg ∈ p.phase.pending, pkg.id = id) ∨ id ∈ p.lost

structure Tracked (packages : List Package) (s : Store) (p : Process) : Prop where
  accounted : ∀ id, Wanted packages id → id < p.phase.chunkPkgId → Accounted s p id
  sound : p.phase.Sound s

structure Invariant (packages : List Package) (s : State) : Prop where
  keeps : KeepsPackages packages s.store
  tracked : ∀ p ∈ s.process, Tracked packages s.store p

/-! ## What the operations keep -/

section Kept

variable {s : Store} {pkg : Package} {id : ℤ}

theorem Store.Kept.add (h : s.Kept id) : (s.addRateLimitedPackage pkg).Kept id := by
  rcases h with hrow | ⟨q, hq, heq⟩ | hreported
  · exact Or.inl hrow
  · exact Or.inr (Or.inl ⟨q, List.mem_insert_of_mem hq, heq⟩)
  · exact Or.inr (Or.inr hreported)

theorem Store.kept_add : (s.addRateLimitedPackage pkg).Kept pkg.id :=
  Or.inr (Or.inl ⟨pkg, List.mem_insert_self, rfl⟩)

theorem Store.Kept.report {pkgs : List Package} (h : s.Kept id) : (s.report pkgs).Kept id := by
  rcases h with hrow | hset | hreported
  · exact Or.inl hrow
  · exact Or.inr (Or.inl hset)
  · exact Or.inr (Or.inr (List.mem_append_left _ hreported))

theorem Store.kept_report {pkgs : List Package} (h : pkg ∈ pkgs) : (s.report pkgs).Kept pkg.id :=
  Or.inr (Or.inr (List.mem_append_right _ (List.mem_map_of_mem h)))

theorem Store.Kept.remove (h : s.Kept id) (hne : id ≠ pkg.id) :
    (s.removeRateLimitedPackage pkg).Kept id := by
  rcases h with hrow | ⟨q, hq, heq⟩ | hreported
  · exact Or.inl hrow
  · refine Or.inr (Or.inl ⟨q, List.mem_filter.mpr ⟨hq, ?_⟩, heq⟩)
    apply decide_eq_true
    rintro rfl
    exact hne heq.symm
  · exact Or.inr (Or.inr hreported)

theorem Store.kept_remove_of_reported (h : pkg.id ∈ s.reported) :
    (s.removeRateLimitedPackage pkg).Kept pkg.id :=
  Or.inr (Or.inr h)

theorem Store.Kept.remove_of_reported (h : s.Kept id) (hreported : pkg.id ∈ s.reported) :
    (s.removeRateLimitedPackage pkg).Kept id := by
  by_cases heq : id = pkg.id
  · rw [heq]
    exact Store.kept_remove_of_reported hreported
  · exact h.remove heq

/-- A removed package stays kept without its place in the set. -/
theorem Store.kept_remove_iff : (s.removeRateLimitedPackage pkg).Kept pkg.id ↔
    ¬ (pkg.id ∉ s.postgres.metrics ∧ pkg.id ∉ s.reported ∧
      ∀ other ∈ s.rateLimited, other.id = pkg.id → other = pkg) := by
  simp only [Store.Kept, Store.removeRateLimitedPackage, List.mem_filter]
  constructor
  · rintro (hrow | ⟨q, ⟨hq, hne⟩, heq⟩ | hreported) ⟨hnoRow, hnotReported, honly⟩
    · exact hnoRow hrow
    · exact of_decide_eq_true hne (honly q hq heq)
    · exact hnotReported hreported
  · intro h
    by_cases hrow : pkg.id ∈ s.postgres.metrics
    · exact Or.inl hrow
    by_cases hreported : pkg.id ∈ s.reported
    · exact Or.inr (Or.inr hreported)
    have hother : ¬ ∀ other ∈ s.rateLimited, other.id = pkg.id → other = pkg :=
      fun honly => h ⟨hrow, hreported, honly⟩
    push Not at hother
    obtain ⟨other, hmem, heq, hne⟩ := hother
    exact Or.inr (Or.inl ⟨other, ⟨hmem, decide_eq_true hne⟩, heq⟩)

end Kept

/-! ## The steps -/

section Steps

variable {packages : List Package} {s s' : Store} {p p' : Process}

/-- A step that neither scans nor commits. -/
theorem Invariant.next (h : Invariant packages ⟨s, some p⟩) (hplace : s'.place = s.place)
    (hkept : ∀ id, Wanted packages id → id < s.place → s.Kept id → s'.Kept id)
    (hchunk : p'.phase.chunkPkgId = p.phase.chunkPkgId)
    (haccounted : ∀ id, Accounted s p id → Accounted s' p' id) (hsound : p'.phase.Sound s') :
    Invariant packages ⟨s', some p'⟩ := by
  constructor
  · intro id hwanted hlt
    rw [hplace] at hlt
    exact hkept id hwanted hlt (h.keeps id hwanted hlt)
  · intro q hq
    cases hq
    constructor
    · intro id hwanted hlt
      rw [hchunk] at hlt
      exact haccounted id ((h.tracked p rfl).accounted id hwanted hlt)
    · exact hsound

theorem Invariant.stop (h : Invariant packages ⟨s, some p⟩) : Invariant packages ⟨s, none⟩ := by
  constructor
  · exact h.keeps
  · intro q hq
    cases hq

theorem Accounted.mono {id : ℤ} (h : Accounted s p id) (hkept : s.Kept id → s'.Kept id)
    (hpending : ∀ pkg ∈ p.phase.pending, pkg ∈ p'.phase.pending ∨ s'.Kept pkg.id)
    (hlost : p'.lost = p.lost) : Accounted s' p' id := by
  rcases h with hid | ⟨pkg, hpkg, rfl⟩ | hid
  · exact Or.inl (hkept hid)
  · rcases hpending pkg hpkg with hmem | hkeptNow
    · exact Or.inr (Or.inl ⟨pkg, hmem, rfl⟩)
    · exact Or.inl hkeptNow
  · rw [← hlost] at hid
    exact Or.inr (Or.inr hid)

theorem lt_queryNextPkgId {pkgId next id : ℤ} (h : queryNextPkgId packages pkgId = some next)
    (hnone : maybeGetPackage packages pkgId = none) (hwanted : Wanted packages id)
    (hlt : id < next) : id < pkgId := by
  obtain ⟨pkg, hget, -⟩ := hwanted
  have hmem := List.mem_of_find?_eq_some hget
  have hid : pkg.id = id := by simpa using List.find?_some hget
  by_contra hle
  rcases (not_lt.mp hle).lt_or_eq with hafter | heq
  · have hfiltered : id ∈ (packages.map Package.id).filter fun id => pkgId < id := by
      apply List.mem_filter.mpr
      exact ⟨List.mem_map.mpr ⟨pkg, hmem, hid⟩, decide_eq_true hafter⟩
    have hmin := (List.min?_eq_some_iff.mp h).2 id hfiltered
    omega
  · rw [heq, hget] at hnone
    cases hnone

section Scan

variable {chunkPkgId : ℤ} {normalPackages scopedPackages : List Package} {lost : List ℤ}
  (h : ∀ id, Wanted packages id → id < chunkPkgId →
    Accounted s ⟨.scanning chunkPkgId normalPackages scopedPackages, lost⟩ id)

include h

/-- A package with the scanned id is passed with a row, or it is in the turn. -/
theorem accounted_passed {pkg : Package} {normal' scoped' : List Package}
    (hget : maybeGetPackage packages chunkPkgId = some pkg)
    (hold : ∀ q ∈ normalPackages ++ scopedPackages, q ∈ normal' ++ scoped')
    (hnew : hasNormalMetadata pkg → pkg.id ∉ s.postgres.metrics → pkg ∈ normal' ++ scoped')
    (id : ℤ) (hwanted : Wanted packages id) (hlt : id < chunkPkgId + 1) :
    Accounted s ⟨.scanning (chunkPkgId + 1) normal' scoped', lost⟩ id := by
  rcases (Int.lt_add_one_iff.mp hlt).lt_or_eq with hbefore | rfl
  · refine (h id hwanted hbefore).mono (fun hkept => hkept) ?_ rfl
    intro q hq
    exact Or.inl (hold q hq)
  · obtain ⟨pkg', hget', hnormal⟩ := hwanted
    rw [hget] at hget'
    cases hget'
    have hid : pkg.id = id := by simpa using List.find?_some hget
    by_cases hrow : pkg.id ∈ s.postgres.metrics
    · rw [hid] at hrow
      exact Or.inl (Or.inl hrow)
    · exact Or.inr (Or.inl ⟨pkg, hnew hnormal hrow, hid⟩)

/-- The scan leaves no wanted package behind that is neither in the turn nor has a row. -/
theorem accounted_scanStep (id : ℤ) (hwanted : Wanted packages id)
    (hlt : id < (scanStep packages s.postgres chunkPkgId normalPackages scopedPackages).chunkPkgId) :
    Accounted s ⟨scanStep packages s.postgres chunkPkgId normalPackages scopedPackages, lost⟩ id := by
  by_cases hroom : normalPackages.length < 128 ∧ scopedPackages.length < 128
  · cases hget : maybeGetPackage packages chunkPkgId with
    | none =>
      cases hnext : queryNextPkgId packages chunkPkgId with
      | none =>
        simp only [scanStep, if_pos hroom, hget, hnext] at hlt ⊢
        refine (h id hwanted hlt).mono (fun hkept => hkept) ?_ rfl
        intro q hq
        exact Or.inl (by simpa [Phase.pending, or_comm] using hq)
      | some next =>
        simp only [scanStep, if_pos hroom, hget, hnext] at hlt ⊢
        exact h id hwanted (lt_queryNextPkgId hnext hget hwanted hlt)
    | some pkg =>
      by_cases hnew : hasNormalMetadata pkg ∧ pkg.id ∉ s.postgres.metrics
      · by_cases hscoped : pkg.name.startsWith "@"
        · simp only [scanStep, if_pos hroom, hget, if_pos hnew, if_pos hscoped] at hlt ⊢
          apply accounted_passed h hget _ _ id hwanted hlt
          · intro q hq
            simp only [List.mem_append] at hq ⊢
            tauto
          · intro _ _
            simp
        · simp only [scanStep, if_pos hroom, hget, if_pos hnew, if_neg hscoped] at hlt ⊢
          apply accounted_passed h hget _ _ id hwanted hlt
          · intro q hq
            simp only [List.mem_append] at hq ⊢
            tauto
          · intro _ _
            simp
      · simp only [scanStep, if_pos hroom, hget, if_neg hnew] at hlt ⊢
        apply accounted_passed h hget (fun q hq => hq) _ id hwanted hlt
        intro hnormal hrow
        exact absurd ⟨hnormal, hrow⟩ hnew
  · simp only [scanStep, if_neg hroom] at hlt ⊢
    refine (h id hwanted hlt).mono (fun hkept => hkept) ?_ rfl
    intro q hq
    exact Or.inl (by simpa [Phase.pending, or_comm] using hq)

end Scan

theorem sound_scanStep {chunkPkgId : ℤ} {normalPackages scopedPackages : List Package} :
    (scanStep packages s.postgres chunkPkgId normalPackages scopedPackages).Sound s := by
  rw [scanStep]
  split_ifs
  · split
    · split <;> trivial
    · split_ifs <;> trivial
  · trivial

/-! ## The invariant of a run -/

theorem Invariant.scopedStep {b : Batch} {pkg : Package} {handles bulk : List Package}
    {lost : List ℤ} {answer : Except ApiError Unit} {phase : Phase}
    (h : Invariant packages ⟨s, some ⟨.querying b (pkg :: handles) bulk, lost⟩⟩)
    (hanswer : scopedStep s b pkg handles bulk answer = some (s', phase)) :
    Invariant packages ⟨s', some ⟨phase, lost⟩⟩ := by
  rcases answer with e | ⟨⟩
  · cases e with
    | rateLimit =>
      cases hanswer
      refine h.next rfl (fun _ _ _ hkept => hkept.add) rfl ?_ trivial
      intro id hid
      refine hid.mono Store.Kept.add ?_ rfl
      intro q hq
      simp only [Phase.pending, List.mem_append, List.mem_cons] at hq ⊢
      rcases hq with (hq | rfl | hq) | hq
      · exact Or.inl (Or.inl (Or.inl hq))
      · exact Or.inr Store.kept_add
      · exact Or.inl (Or.inl (Or.inr hq))
      · exact Or.inl (Or.inr hq)
    | doesNotExist =>
      cases hanswer
      have hreported : pkg.id ∈ (s.report [pkg]).reported := by simp [Store.report]
      have hkeeps : ∀ {id}, s.Kept id → ((s.report [pkg]).removeRateLimitedPackage pkg).Kept id :=
        fun hkept => hkept.report.remove_of_reported hreported
      refine h.next rfl (fun _ _ _ hkept => hkeeps hkept) rfl ?_ trivial
      intro id hid
      refine hid.mono hkeeps ?_ rfl
      intro q hq
      simp only [Phase.pending, List.mem_append, List.mem_cons] at hq ⊢
      rcases hq with (hq | rfl | hq) | hq
      · exact Or.inl (Or.inl (Or.inl hq))
      · exact Or.inr (Store.kept_remove_of_reported hreported)
      · exact Or.inl (Or.inl (Or.inr hq))
      · exact Or.inl (Or.inr hq)
    | reqwest | io | other => cases hanswer
  · cases hanswer
    refine h.next rfl (fun _ _ _ hkept => hkept) rfl ?_ trivial
    intro id hid
    refine hid.mono (fun hkept => hkept) ?_ rfl
    intro q hq
    simp only [Phase.pending, List.mem_append, List.mem_cons] at hq ⊢
    tauto

theorem Invariant.bulkStep {b : Batch} {pkgs : List Package} {lost : List ℤ}
    {answer : Except ApiError (Package → Bool)} {phase : Phase}
    (h : Invariant packages ⟨s, some ⟨.querying b [] pkgs, lost⟩⟩)
    (hanswer : bulkStep s b pkgs answer = some (s', phase)) :
    Invariant packages ⟨s', some ⟨phase, lost⟩⟩ := by
  rcases answer with e | has
  · cases e with
    | rateLimit =>
      cases hanswer
      refine h.next rfl (fun _ _ _ hkept => hkept) rfl ?_ trivial
      intro id hid
      refine hid.mono (fun hkept => hkept) ?_ rfl
      intro q hq
      exact Or.inl (by simpa [Phase.pending] using hq)
    | doesNotExist =>
      cases hanswer
      refine h.next rfl (fun _ _ _ hkept => hkept.report) rfl ?_ ?_
      · intro id hid
        refine hid.mono Store.Kept.report ?_ rfl
        intro q hq
        exact Or.inl (by simpa [Phase.pending] using hq)
      · intro q hq
        exact List.mem_append_right _ (List.mem_map_of_mem hq)
    | reqwest | io | other => cases hanswer
  · cases hanswer
    refine h.next rfl (fun _ _ _ hkept => hkept.report) rfl ?_ trivial
    intro id hid
    refine hid.mono Store.Kept.report ?_ rfl
    intro q hq
    by_cases hhas : has q
    · left
      simp only [Phase.pending, List.mem_append, List.mem_filter, List.append_nil] at hq ⊢
      tauto
    · simp only [Phase.pending, List.append_nil, List.mem_append] at hq ⊢
      rcases hq with hq | hq
      · exact Or.inl (Or.inl hq)
      · right
        apply Store.kept_report
        exact List.mem_filter.mpr ⟨hq, by simpa using hhas⟩

theorem Invariant.mark {b : Batch} {op : RedisOp} {pkg : Package} {pkgs : List Package}
    {lost : List ℤ} (h : Invariant packages ⟨s, some ⟨.marking b op (pkg :: pkgs), lost⟩⟩) :
    Invariant packages ⟨s.apply pkg op, some ⟨.marking b op pkgs, lost⟩⟩ := by
  cases op with
  | add =>
    refine h.next rfl (fun _ _ _ hkept => hkept.add) rfl ?_ trivial
    intro id hid
    refine hid.mono Store.Kept.add ?_ rfl
    intro q hq
    simp only [Phase.pending, List.mem_append, List.mem_cons] at hq ⊢
    rcases hq with hq | rfl | hq
    · exact Or.inl (Or.inl hq)
    · exact Or.inr Store.kept_add
    · exact Or.inl (Or.inr hq)
  | remove =>
    have hreported := (h.tracked _ rfl).sound
    have hpkg : pkg.id ∈ s.reported := hreported pkg List.mem_cons_self
    have hkeeps : ∀ {id}, s.Kept id → (s.removeRateLimitedPackage pkg).Kept id :=
      fun hkept => hkept.remove_of_reported hpkg
    refine h.next rfl (fun _ _ _ hkept => hkeeps hkept) rfl ?_ ?_
    · intro id hid
      refine hid.mono hkeeps ?_ rfl
      intro q hq
      simp only [Phase.pending, List.mem_append, List.mem_cons] at hq ⊢
      rcases hq with hq | rfl | hq
      · exact Or.inl (Or.inl hq)
      · exact Or.inr (Store.kept_remove_of_reported hpkg)
      · exact Or.inl (Or.inr hq)
    · intro q hq
      exact hreported q (List.mem_cons_of_mem _ hq)

theorem Invariant.remove {b : Batch} {pkg : Package} {toRemove : List Package} {lost : List ℤ}
    (h : Invariant packages ⟨s, some ⟨.inserting b (pkg :: toRemove), lost⟩⟩)
    (hkeeps : Wanted packages pkg.id → pkg.id < s.place →
      (s.removeRateLimitedPackage pkg).Kept pkg.id) :
    Invariant packages
      ⟨s.removeRateLimitedPackage pkg, some ⟨.inserting b toRemove, lost⟩⟩ := by
  have hmem := (h.tracked _ rfl).sound
  have hpkg : pkg ∈ b.downloadMetrics := hmem pkg List.mem_cons_self
  refine h.next rfl ?_ rfl ?_ ?_
  · intro id hwanted hlt hkept
    by_cases heq : id = pkg.id
    · rw [heq] at hwanted hlt ⊢
      exact hkeeps hwanted hlt
    · exact hkept.remove heq
  · intro id hid
    rcases hid with hkept | hpending | hlost
    · by_cases heq : id = pkg.id
      · exact Or.inr (Or.inl ⟨pkg, hpkg, heq.symm⟩)
      · exact Or.inl (hkept.remove heq)
    · exact Or.inr (Or.inl hpending)
    · exact Or.inr (Or.inr hlost)
  · intro q hq
    exact hmem q (List.mem_cons_of_mem _ hq)

/-- The next turn begins although COMMIT may have failed. -/
theorem commitStep_eq (error : Option DieselError) (s : Store) (b : Batch) (lost : List ℤ) :
    commitStep error s b lost =
      ⟨{ s with postgres := if error = none then
          ⟨s.postgres.metrics ++ b.downloadMetrics.map Package.id, some b.chunkPkgId⟩
          else s.postgres },
        if b.finished then none else some ⟨.scanning b.chunkPkgId [] b.redoRl,
          if error = none then lost else lost ++ b.downloadMetrics.map Package.id⟩⟩ := by
  rw [commitStep, runPsqlTransaction_commit error rfl]
  rfl

theorem Store.kept_committed {b : Batch} {id : ℤ} :
    ({ s with postgres :=
        ⟨s.postgres.metrics ++ b.downloadMetrics.map Package.id, some b.chunkPkgId⟩ } : Store).Kept
      id ↔ s.Kept id ∨ id ∈ b.downloadMetrics.map Package.id := by
  simp only [Store.Kept, List.mem_append, or_assoc]
  constructor
  · rintro (hrow | hnew | hset | hreported)
    · exact Or.inl hrow
    · exact Or.inr (Or.inr (Or.inr hnew))
    · exact Or.inr (Or.inl hset)
    · exact Or.inr (Or.inr (Or.inl hreported))
  · rintro (hrow | hset | hreported | hnew)
    · exact Or.inl hrow
    · exact Or.inr (Or.inr (Or.inl hset))
    · exact Or.inr (Or.inr (Or.inr hreported))
    · exact Or.inr (Or.inl hnew)

/-- What is accounted for is committed or lost for good. -/
theorem Invariant.commit {b : Batch} {lost : List ℤ} {error : Option DieselError}
    (h : Invariant packages ⟨s, some ⟨.inserting b [], lost⟩⟩)
    (hlost : error = none → ∀ id ∈ lost, Wanted packages id → id < b.chunkPkgId →
      s.Kept id ∨ id ∈ b.downloadMetrics.map Package.id) :
    Invariant packages (commitStep error s b lost) := by
  have haccounted := (h.tracked _ rfl).accounted
  rw [commitStep_eq]
  by_cases herror : error = none
  · have hkept : ∀ id, Wanted packages id → id < b.chunkPkgId →
        s.Kept id ∨ id ∈ b.downloadMetrics.map Package.id := by
      intro id hwanted hlt
      rcases haccounted id hwanted hlt with hid | ⟨pkg, hpkg, rfl⟩ | hid
      · exact Or.inl hid
      · exact Or.inr (List.mem_map_of_mem hpkg)
      · exact hlost herror id hid hwanted hlt
    rw [if_pos herror]
    constructor
    · intro id hwanted hlt
      exact Store.kept_committed.mpr (hkept id hwanted hlt)
    · intro p hp
      rw [if_pos herror] at hp
      cases hfinished : b.finished with
      | true => simp [hfinished] at hp
      | false =>
        simp only [hfinished] at hp
        cases hp
        constructor
        · intro id hwanted hlt
          exact Or.inl (Store.kept_committed.mpr (hkept id hwanted hlt))
        · trivial
  · rw [if_neg herror]
    constructor
    · exact h.keeps
    · intro p hp
      rw [if_neg herror] at hp
      cases hfinished : b.finished with
      | true => simp [hfinished] at hp
      | false =>
        simp only [hfinished] at hp
        cases hp
        constructor
        · intro id hwanted hlt
          rcases haccounted id hwanted hlt with hid | ⟨pkg, hpkg, rfl⟩ | hid
          · exact Or.inl hid
          · exact Or.inr (Or.inr (List.mem_append_right _ (List.mem_map_of_mem hpkg)))
          · exact Or.inr (Or.inr (List.mem_append_left _ hid))
        · trivial

end Steps

section Run

variable {packages : List Package} {s s' : State} {a : Action}

theorem Invariant.step (h : Invariant packages s) (hkeeps : ¬ LosesPackage packages s a)
    (hstep : step packages s a = some s') : Invariant packages s' := by
  obtain ⟨store, process⟩ := s
  cases a with
  | start =>
    rw [DownloadMetrics.step] at hstep
    split_ifs at hstep with hnone
    cases hstep
    constructor
    · exact h.keeps
    · intro p hp
      cases hp
      constructor
      · intro id hwanted hlt
        exact Or.inl (h.keeps id hwanted hlt)
      · trivial
  | scan =>
    rw [DownloadMetrics.step] at hstep
    split at hstep
    · next chunkPkgId normalPackages scopedPackages lost hp =>
      cases hp
      cases hstep
      constructor
      · exact h.keeps
      · intro p hp
        cases hp
        constructor
        · exact accounted_scanStep (h.tracked _ rfl).accounted
        · exact sound_scanStep
    · cases hstep
  | scopedAnswer answer =>
    rw [DownloadMetrics.step] at hstep
    split at hstep
    · next b pkg handles bulk lost hp =>
      cases hp
      split at hstep
      · next store' phase hanswer =>
        cases hstep
        exact h.scopedStep hanswer
      · cases hstep
        exact h.stop
    · cases hstep
  | bulkAnswer answer =>
    rw [DownloadMetrics.step] at hstep
    split at hstep
    · next b pkg pkgs lost hp =>
      cases hp
      split at hstep
      · next store' phase hanswer =>
        cases hstep
        exact h.bulkStep hanswer
      · cases hstep
        exact h.stop
    · cases hstep
  | mark =>
    rw [DownloadMetrics.step] at hstep
    split at hstep
    · next b op pkg pkgs lost hp =>
      cases hp
      cases hstep
      exact h.mark
    · next b op lost hp =>
      cases hp
      cases hstep
      refine h.next rfl (fun _ _ _ hkept => hkept) rfl ?_ trivial
      intro id hid
      refine hid.mono (fun hkept => hkept) ?_ rfl
      intro q hq
      exact Or.inl (by simpa [Phase.pending] using hq)
    · cases hstep
  | begin =>
    rw [DownloadMetrics.step] at hstep
    split at hstep
    · next b lost hp =>
      cases hp
      cases hstep
      refine h.next rfl (fun _ _ _ hkept => hkept) rfl ?_ ?_
      · intro id hid
        refine hid.mono (fun hkept => hkept) ?_ rfl
        intro q hq
        exact Or.inl (by simpa [Phase.pending] using hq)
      · intro q hq
        exact List.mem_of_mem_filter hq
    · cases hstep
  | remove =>
    rw [DownloadMetrics.step] at hstep
    split at hstep
    · next b pkg toRemove lost hp =>
      cases hp
      cases hstep
      apply h.remove
      intro hwanted hlt
      apply Store.kept_remove_iff.mpr
      rintro ⟨hrow, hreported, honly⟩
      exact hkeeps (Or.inl ⟨b, pkg, toRemove, lost, rfl, rfl, hwanted, hlt, hrow, hreported, honly⟩)
    · cases hstep
  | commit error =>
    rw [DownloadMetrics.step] at hstep
    split at hstep
    · next b lost hp =>
      cases hp
      cases hstep
      apply h.commit
      rintro rfl id hid hwanted hlt
      by_contra hno
      obtain ⟨hkept, hrow⟩ := not_or.mp hno
      exact hkeeps (Or.inr ⟨b, lost, id, rfl, rfl, hwanted, hid, hlt, hkept, hrow⟩)
    · cases hstep
  | kill =>
    cases hstep
    constructor
    · exact h.keeps
    · intro p hp
      cases hp

/-- Both steps do lose their package. -/
theorem not_losesPackage (hstep : step packages s a = some s')
    (hkeeps : KeepsPackages packages s'.store) : ¬ LosesPackage packages s a := by
  obtain ⟨store, process⟩ := s
  rintro (⟨b, pkg, toRemove, lost, rfl, rfl, hwanted, hlt, hlast⟩ |
    ⟨b, lost, id, rfl, rfl, hwanted, hid, hlt, hkept, hrow⟩)
  · cases hstep
    exact Store.kept_remove_iff.mp (hkeeps pkg.id hwanted hlt) hlast
  · cases hstep
    rw [commitStep_eq] at hkeeps
    rcases Store.kept_committed.mp (hkeeps id hwanted hlt) with hold | hnew
    · exact hkept hold
    · exact hrow hnew

end Run

def samplePackage : Package := ⟨1, "@a/x", .normal, ""⟩

def emptyStore : Store := ⟨⟨[], none⟩, [], []⟩

/-- The only package is rate-limited. -/
def rateLimitedTurn : List Action := [.start, .scan, .scan, .scopedAnswer (.error .rateLimit), .begin]

end NpmFollower.DownloadMetrics
