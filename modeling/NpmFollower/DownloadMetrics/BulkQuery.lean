import NpmFollower.DownloadMetrics.MakeMetric
import NpmFollower.Library.FiniteMap
import NpmFollower.PostgresDb.CustomTypes

/-! # Merging the yearly responses to a bulk query

The response to a bulk query is a map from the packages to their counts, in which
a package may be missing or null. The responses of the later years are merged
into that of the first, which panics on a package that the first does not have.
-/

namespace NpmFollower.DownloadMetrics

open PostgresDb

structure ApiResult where
  downloads : List ApiResultDownload
  endDay : String
  package : String
  startDay : String

abbrev BulkApiResult := BTreeMap String (Option ApiResult)

inductive ApiError where
  | reqwest (message : String)
  | io (message : String)
  | doesNotExist
  | other (message : String)
  | rateLimit

/-- What ends a query before its result. -/
inductive Stop where
  | error (e : ApiError)
  | panic

section QueryAbstraction

variable {R : Type} (merger : R → R → Option R)

/-- One turn of the loop in `query_abstraction`; `none` is a panic of the merger. -/
def mergeResponse (apiResult : Option R) : Except ApiError R → Except Stop (Option R)
  | .error e => .error (.error e)
  | .ok result =>
    match apiResult with
    | none => .ok (some result)
    | some apiResult =>
      match merger apiResult result with
      | none => .error .panic
      | some newApiResult => .ok (some newApiResult)

/-- `api_result.ok_or_else(..)` panics. -/
def unwrapResult : Except Stop (Option R) → Except Stop R
  | .error stop => .error stop
  | .ok none => .error .panic
  | .ok (some apiResult) => .ok apiResult

/-- The loop over the responses to the requests, in order. -/
def mergeResponses (responses : List (Except ApiError R)) : Except Stop R :=
  unwrapResult (responses.foldlM (mergeResponse merger) none)

end QueryAbstraction

/-- The response is appended. -/
def ApiResult.append (earlier later : ApiResult) : ApiResult :=
  { earlier with downloads := earlier.downloads ++ later.downloads, endDay := later.endDay }

/-- The merger for one package, given by its name. -/
def mergePackage (result apiResult : BulkApiResult) (pkgName : String) : Option BulkApiResult :=
  match result[pkgName]? with
  | some (some pkgRes) =>
    match apiResult[pkgName]? with
    | some (some newPkgRes) => some (apiResult.insert pkgName (some (newPkgRes.append pkgRes)))
    -- `take().unwrap()`
    | some none => none
    -- `get_mut(&pkg_name).unwrap()`
    | none => none
  | _ => some apiResult

def bulkMerger (pkgs : List String) (apiResult result : BulkApiResult) : Option BulkApiResult :=
  pkgs.foldlM (mergePackage result) apiResult

/-- The query for other than one package, with the responses to its requests. -/
def realBulkqueryNpmMetrics (pkgs : List String)
    (responses : List (Except ApiError BulkApiResult)) : Except Stop BulkApiResult :=
  if 2 ≤ pkgs.length ∧ pkgs.length ≤ 128 then mergeResponses (bulkMerger pkgs) responses
  else .error .panic

/-! ## One response -/

/-- The counts of a package, if it is present. -/
def countsOf (m : BulkApiResult) (name : String) : Option (List ApiResultDownload) :=
  m[name]?.join.map ApiResult.downloads

theorem mergePackage_eq_none_iff {result apiResult : BulkApiResult} {pkgName : String} :
    mergePackage result apiResult pkgName = none ↔
      (countsOf result pkgName).isSome ∧ countsOf apiResult pkgName = none := by
  simp only [mergePackage, countsOf]
  rcases result[pkgName]? with _ | _ | later
  · simp
  · simp
  · rcases apiResult[pkgName]? with _ | _ | earlier <;> simp

theorem countsOf_mergePackage {result apiResult merged : BulkApiResult} {pkgName : String}
    (h : mergePackage result apiResult pkgName = some merged) (name : String) :
    countsOf merged name = (countsOf apiResult name).map fun counts =>
      counts ++ if name = pkgName then (countsOf result name).getD [] else [] := by
  simp only [mergePackage] at h
  cases hresult : result[pkgName]?.join with
  | none =>
    have hsame : apiResult = merged := by
      rcases hentry : result[pkgName]? with _ | _ | later
      · simpa [hentry] using h
      · simpa [hentry] using h
      · simp [hentry] at hresult
    subst hsame
    by_cases hname : name = pkgName
    · subst hname
      simp [countsOf, hresult]
      rfl
    · simp [hname]
  | some later =>
    rw [Option.join_eq_some_iff] at hresult
    simp only [hresult] at h
    rcases hearlier : apiResult[pkgName]? with _ | _ | earlier
    · simp [hearlier] at h
    · simp [hearlier] at h
    · simp only [hearlier, Option.some.injEq] at h
      subst h
      by_cases hname : name = pkgName
      · subst hname
        simp [countsOf, hearlier, hresult, ApiResult.append]
      · simp [countsOf, FiniteMap.getElem?_insert, hname, Ne.symm hname]
        rfl

/-- A package that is listed several times gets the counts as often. -/
def repeated (n : ℕ) (counts : List ApiResultDownload) : List ApiResultDownload :=
  (List.replicate n counts).flatten

theorem repeated_nil (n : ℕ) : repeated n [] = [] := by
  simp [repeated]

theorem bulkMerger_cons (pkg : String) (pkgs : List String) (apiResult result : BulkApiResult) :
    bulkMerger (pkg :: pkgs) apiResult result =
      (mergePackage result apiResult pkg).bind fun merged => bulkMerger pkgs merged result := by
  rw [bulkMerger, List.foldlM_cons]
  rfl

/-- What is present stays present. -/
theorem isSome_countsOf_mergePackage {result apiResult merged : BulkApiResult} {pkgName : String}
    (h : mergePackage result apiResult pkgName = some merged) (name : String) :
    (countsOf merged name).isSome = (countsOf apiResult name).isSome := by
  rw [countsOf_mergePackage h, Option.isSome_map]

theorem countsOf_bulkMerger {pkgs : List String} {apiResult merged result : BulkApiResult}
    (h : bulkMerger pkgs apiResult result = some merged) (name : String) :
    countsOf merged name = (countsOf apiResult name).map fun counts =>
      counts ++ repeated (pkgs.count name) ((countsOf result name).getD []) := by
  induction pkgs generalizing apiResult with
  | nil =>
    cases h
    simp [repeated]
  | cons pkg pkgs ih =>
    rw [bulkMerger_cons] at h
    obtain ⟨next, hnext, hrest⟩ := Option.bind_eq_some_iff.mp h
    rw [ih hrest, countsOf_mergePackage hnext, Option.map_map]
    congr 1
    funext counts
    by_cases hname : name = pkg
    · subst hname
      simp [repeated, List.replicate_succ]
    · simp [hname, List.count_cons_of_ne (Ne.symm hname)]

/-- The merger panics on a package that is present and has no counts so far. -/
theorem isSome_bulkMerger_iff {pkgs : List String} {apiResult result : BulkApiResult} :
    (bulkMerger pkgs apiResult result).isSome ↔
      ∀ name ∈ pkgs, (countsOf result name).isSome → (countsOf apiResult name).isSome := by
  induction pkgs generalizing apiResult with
  | nil => simp [bulkMerger]
  | cons pkg pkgs ih =>
    rw [bulkMerger_cons]
    simp only [List.forall_mem_cons]
    cases hnext : mergePackage result apiResult pkg with
    | none =>
      obtain ⟨hpresent, habsent⟩ := mergePackage_eq_none_iff.mp hnext
      simp [hpresent, habsent]
    | some next =>
      have hpkg : (countsOf result pkg).isSome → (countsOf apiResult pkg).isSome := by
        intro hpresent
        by_contra habsent
        have hnone := mergePackage_eq_none_iff.mpr ⟨hpresent, by simpa using habsent⟩
        rw [hnext] at hnone
        cases hnone
      rw [Option.bind_some, ih]
      simp only [isSome_countsOf_mergePackage hnext]
      exact ⟨fun h => ⟨hpkg, h⟩, fun h => h.2⟩

/-! ## All responses -/

/-- The counts of a package in the years in which it is present. -/
def series (responses : List BulkApiResult) (name : String) : List (List ApiResultDownload) :=
  responses.filterMap fun m => countsOf m name

theorem series_cons (m : BulkApiResult) (rest : List BulkApiResult) (name : String) :
    series (m :: rest) name = (countsOf m name).toList ++ series rest name := by
  rw [series, List.filterMap_cons]
  cases countsOf m name <;> rfl

theorem foldlM_mergeResponse_cons {pkgs : List String} (later : BulkApiResult)
    (rest : List BulkApiResult) (apiResult : BulkApiResult) :
    ((later :: rest).map .ok).foldlM (mergeResponse (bulkMerger pkgs)) (some apiResult) =
      match bulkMerger pkgs apiResult later with
      | none => .error .panic
      | some next => (rest.map .ok).foldlM (mergeResponse (bulkMerger pkgs)) (some next) := by
  rw [List.map_cons, List.foldlM_cons, mergeResponse]
  cases bulkMerger pkgs apiResult later <;> rfl

/-- The loop after the first response, where all that is present later has counts so far. -/
theorem foldlM_later {pkgs : List String} {rest : List BulkApiResult} {apiResult : BulkApiResult}
    (h : ∀ name ∈ pkgs, series rest name ≠ [] → (countsOf apiResult name).isSome) :
    ∃ merged, (rest.map .ok).foldlM (mergeResponse (bulkMerger pkgs)) (some apiResult) =
        .ok (some merged) ∧
      ∀ name, countsOf merged name = (countsOf apiResult name).map fun counts =>
        counts ++ (series rest name).flatMap (repeated (pkgs.count name)) := by
  induction rest generalizing apiResult with
  | nil =>
    refine ⟨apiResult, rfl, fun name => ?_⟩
    simp [series]
  | cons later rest ih =>
    have hsome : (bulkMerger pkgs apiResult later).isSome := by
      rw [isSome_bulkMerger_iff]
      intro name hname hpresent
      apply h name hname
      rw [series_cons]
      obtain ⟨counts, hcounts⟩ := Option.isSome_iff_exists.mp hpresent
      simp [hcounts]
    obtain ⟨next, hnext⟩ := Option.isSome_iff_exists.mp hsome
    have hcounts := countsOf_bulkMerger hnext
    have hrest : ∀ name ∈ pkgs, series rest name ≠ [] → (countsOf next name).isSome := by
      intro name hname hne
      rw [hcounts, Option.isSome_map]
      apply h name hname
      rw [series_cons]
      exact List.append_ne_nil_of_right_ne_nil _ hne
    obtain ⟨merged, hfold, hmerged⟩ := ih hrest
    refine ⟨merged, ?_, fun name => ?_⟩
    · rw [foldlM_mergeResponse_cons, hnext]
      exact hfold
    · rw [hmerged, hcounts, Option.map_map, series_cons]
      congr 1
      funext counts
      cases countsOf later name with
      | none => simp [repeated_nil]
      | some laterCounts => simp

/-- The loop panics on a package that is first present in a later year. -/
theorem foldlM_later_panics {pkgs : List String} {rest : List BulkApiResult}
    {apiResult : BulkApiResult} {name : String} (hname : name ∈ pkgs)
    (hpresent : series rest name ≠ []) (habsent : countsOf apiResult name = none) :
    (rest.map .ok).foldlM (mergeResponse (bulkMerger pkgs)) (some apiResult) =
      .error Stop.panic := by
  induction rest generalizing apiResult with
  | nil => exact absurd rfl hpresent
  | cons later rest ih =>
    rw [foldlM_mergeResponse_cons]
    cases hnext : bulkMerger pkgs apiResult later with
    | none => rfl
    | some next =>
      have hsome := isSome_bulkMerger_iff.mp (Option.isSome_of_eq_some hnext) name hname
      rw [habsent] at hsome
      have hlater : countsOf later name = none := by simpa using hsome
      rw [series_cons, hlater] at hpresent
      apply ih hpresent
      rw [countsOf_bulkMerger hnext, habsent]
      rfl

theorem length_flatMap_repeated (n : ℕ) (ls : List (List ApiResultDownload)) :
    (ls.flatMap (repeated n)).length = n * ls.flatten.length := by
  induction ls with
  | nil => simp
  | cons counts ls ih =>
    rw [List.flatMap_cons, List.flatten_cons, List.length_append, List.length_append, ih, repeated,
      Nat.mul_add]
    simp

theorem flatMap_repeated_eq_iff {n : ℕ} (hn : 0 < n) (ls : List (List ApiResultDownload)) :
    ls.flatMap (repeated n) = ls.flatten ↔ n = 1 ∨ ls.flatten = [] := by
  constructor
  · intro h
    have hlength := length_flatMap_repeated n ls
    rw [h] at hlength
    by_cases hone : n = 1
    · exact Or.inl hone
    · have htwice : 2 * ls.flatten.length ≤ n * ls.flatten.length :=
        Nat.mul_le_mul_right _ (by omega)
      exact Or.inr (List.eq_nil_of_length_eq_zero (by omega))
  · rintro (rfl | hnil)
    · have hid : repeated 1 = id := by
        funext counts
        simp [repeated]
      rw [hid, List.flatMap_id]
    · have hlength := length_flatMap_repeated n ls
      rw [hnil] at hlength ⊢
      exact List.eq_nil_of_length_eq_zero (by simpa using hlength)

/-- The query does not panic, and every package has the counts of the years in which it is
present, if there are any. -/
def MergesAll (pkgs : List String) (responses : List BulkApiResult) : Prop :=
  ∃ merged, realBulkqueryNpmMetrics pkgs (responses.map .ok) = .ok merged ∧
    ∀ name ∈ pkgs, countsOf merged name =
      if series responses name = [] then none else some (series responses name).flatten

theorem realBulkqueryNpmMetrics_cons {pkgs : List String} (hpkgs : 2 ≤ pkgs.length)
    (hlimit : pkgs.length ≤ 128) (first : BulkApiResult) (rest : List BulkApiResult) :
    realBulkqueryNpmMetrics pkgs ((first :: rest).map .ok) =
      unwrapResult ((rest.map .ok).foldlM (mergeResponse (bulkMerger pkgs)) (some first)) := by
  have hfold : ((first :: rest).map .ok).foldlM (mergeResponse (bulkMerger pkgs)) none =
      (rest.map .ok).foldlM (mergeResponse (bulkMerger pkgs)) (some first) := rfl
  rw [realBulkqueryNpmMetrics, if_pos ⟨hpkgs, hlimit⟩, mergeResponses, hfold]

/-- The merge is right if and only if there is a response, every package that is present in a
later year is present in the first, and one with later counts is listed once. -/
theorem mergesAll_iff (pkgs : List String) (responses : List BulkApiResult)
    (hpkgs : 2 ≤ pkgs.length) (hlimit : pkgs.length ≤ 128) :
    MergesAll pkgs responses ↔ ∃ first rest, responses = first :: rest ∧
      ∀ name ∈ pkgs, series rest name ≠ [] →
        (countsOf first name).isSome ∧ (pkgs.count name = 1 ∨ (series rest name).flatten = []) := by
  cases responses with
  | nil =>
    constructor
    · rintro ⟨merged, hmerged, -⟩
      rw [realBulkqueryNpmMetrics, if_pos ⟨hpkgs, hlimit⟩] at hmerged
      cases hmerged
    · rintro ⟨first, rest, hcons, -⟩
      cases hcons
  | cons first rest =>
    have hrun := realBulkqueryNpmMetrics_cons hpkgs hlimit first rest
    by_cases hpresent : ∀ name ∈ pkgs, series rest name ≠ [] → (countsOf first name).isSome
    · obtain ⟨merged, hfold, hmerged⟩ := foldlM_later hpresent
      rw [hfold] at hrun
      have hcounts : ∀ name ∈ pkgs, (countsOf merged name = (if series (first :: rest) name = []
          then none else some (series (first :: rest) name).flatten)) ↔
            (series rest name ≠ [] → pkgs.count name = 1 ∨ (series rest name).flatten = []) := by
        intro name hname
        have hcount : 0 < pkgs.count name := List.count_pos_iff.mpr hname
        rw [hmerged, series_cons]
        cases hfirst : countsOf first name with
        | none =>
          have hnil : series rest name = [] := by
            by_contra hne
            have hsome := hpresent name hname hne
            rw [hfirst] at hsome
            cases hsome
          simp [hnil]
        | some counts =>
          have hiff := flatMap_repeated_eq_iff hcount (series rest name)
          simp only [Option.map_some, Option.toList_some, List.singleton_append, reduceCtorEq,
            if_false, List.flatten_cons, Option.some.injEq, List.append_cancel_left_eq, hiff]
          constructor
          · intro h _
            exact h
          · intro h
            by_cases hne : series rest name = []
            · exact Or.inr (by rw [hne]; rfl)
            · exact h hne
      constructor
      · rintro ⟨merged', hmerged', hall⟩
        rw [hrun] at hmerged'
        cases hmerged'
        exact ⟨first, rest, rfl, fun name hname hne =>
          ⟨hpresent name hname hne, (hcounts name hname).mp (hall name hname) hne⟩⟩
      · rintro ⟨first', rest', hcons, hall⟩
        cases hcons
        exact ⟨merged, hrun, fun name hname =>
          (hcounts name hname).mpr fun hne => (hall name hname hne).2⟩
    · push Not at hpresent
      obtain ⟨name, hname, hne, habsent⟩ := hpresent
      rw [foldlM_later_panics hname hne (by simpa using habsent)] at hrun
      constructor
      · rintro ⟨merged, hmerged, -⟩
        rw [hrun] at hmerged
        cases hmerged
      · rintro ⟨first', rest', hcons, hall⟩
        cases hcons
        exact absurd (hall name hname hne).1 habsent

def oneDay (day : String) (count : ℤ) : ApiResult := ⟨[⟨day, some count⟩], day, "a", day⟩

def nullFirst : BulkApiResult := .ofList [("a", some (oneDay "2015-01-10" 7)), ("b", none)]

def nullLater : BulkApiResult := .ofList [("a", some (oneDay "2016-01-11" 5)), ("b", none)]

def bothLater : BulkApiResult :=
  .ofList [("a", some (oneDay "2016-01-11" 5)), ("b", some (oneDay "2016-01-11" 1))]

theorem mergesAll_nullAlways : MergesAll ["a", "b"] [nullFirst, nullLater] := by
  apply (mergesAll_iff _ _ (by decide) (by decide)).mpr
  refine ⟨_, _, rfl, fun name hname hne => ?_⟩
  rcases List.mem_pair.mp hname with rfl | rfl
  · exact ⟨by decide +kernel, Or.inl (by decide)⟩
  · exact absurd (by decide +kernel) hne

/-- A package that is null in the first year and present in the second. -/
theorem not_mergesAll_presentLater : ¬ MergesAll ["a", "b"] [nullFirst, bothLater] := by
  rintro ⟨merged, hmerged, -⟩
  have hpanic : (realBulkqueryNpmMetrics ["a", "b"] ([nullFirst, bothLater].map .ok)).isOk =
      false := by decide +kernel
  rw [hmerged] at hpanic
  cases hpanic

end NpmFollower.DownloadMetrics
