import NpmFollower.DownloadMetrics.BulkQuery
import NpmFollower.Library.Separators

/-! # Splitting a bulk query

A request with the words javascript, window and onerror in it would be blocked, so the
packages with the first word are queried apart from the others. One of the two parts
can be empty, and that of the first word can still have all words in it.
-/

namespace NpmFollower.DownloadMetrics

open Std PostgresDb

/-- A query to the API, for one package or for several. -/
inductive Query where
  | single (pkg : String)
  | bulk (pkgs : List String)
deriving DecidableEq

/-- What the API answers to the requests of a query, in order. -/
structure ApiAnswers where
  single : String → List (Except ApiError ApiResult)
  bulk : List String → List (Except ApiError BulkApiResult)

inductive BulkStop where
  | assertion
  | stop (s : Stop)

/-- The queries that a call has issued, and how it ends. -/
structure BulkCall where
  queries : List Query
  result : Except BulkStop BulkApiResult

namespace Query

def packages : Query → List String
  | .single pkg => [pkg]
  | .bulk pkgs => pkgs

/-- The `formatter`s. -/
def text : Query → String
  | .single pkg => pkg
  | .bulk pkgs => ",".intercalate pkgs

/-- `query_npm_metrics`, or the query at the end of `real_bulkquery_npm_metrics`. -/
def run (answers : ApiAnswers) : Query → Except Stop BulkApiResult
  | .single pkg =>
    (mergeResponses (fun apiResult result => some (apiResult.append result))
      (answers.single pkg)).map fun apiResult => (∅ : BulkApiResult).insert pkg (some apiResult)
  | .bulk pkgs => realBulkqueryNpmMetrics pkgs (answers.bulk pkgs)

end Query

/-- `str::contains`. -/
def containsText (text word : String) : Bool := word.toList <:+: text.toList

def issue (answers : ApiAnswers) (q : Query) : BulkCall :=
  ⟨[q], match q.run answers with
    | .error s => .error (.stop s)
    | .ok apiResult => .ok apiResult⟩

/-- `real_bulkquery_npm_metrics`. -/
def realBulkquery (answers : ApiAnswers) (pkgs : List String) : BulkCall :=
  match pkgs with
  | [pkg] => issue answers (.single pkg)
  | _ =>
    if 2 ≤ pkgs.length ∧ pkgs.length ≤ 128 then issue answers (.bulk pkgs)
    else ⟨[], .error .assertion⟩

def pkgIndices (pkgs : List String) (word : String) : List ℕ :=
  pkgs.zipIdx.filterMap fun e => if containsText e.1 word then some e.2 else none

def javascriptPkgs (pkgs : List String) : List String :=
  (pkgIndices pkgs "javascript").filterMap fun i => pkgs[i]?

def nonJavascriptPkgs (pkgs : List String) : List String :=
  pkgs.filter fun pkg => !containsText pkg "javascript"

def bulkqueryNpmMetrics (answers : ApiAnswers) (pkgs : List String) : BulkCall :=
  if pkgIndices pkgs "javascript" ≠ [] ∧ pkgIndices pkgs "window" ≠ [] ∧
      pkgIndices pkgs "onerror" ≠ [] then
    let call := realBulkquery answers (javascriptPkgs pkgs)
    match call.result with
    | .error _ => call
    | .ok map =>
      let otherCall := realBulkquery answers (nonJavascriptPkgs pkgs)
      ⟨call.queries ++ otherCall.queries, otherCall.result.map fun otherMap =>
        otherMap.toList.foldl (fun map e => map.insert e.1 e.2) map⟩
  else realBulkquery answers pkgs

/-- The three words occur in the packages, in whatever order. -/
structure HasPattern (pkgs : List String) : Prop where
  javascript : ∃ pkg ∈ pkgs, containsText pkg "javascript"
  window : ∃ pkg ∈ pkgs, containsText pkg "window"
  onerror : ∃ pkg ∈ pkgs, containsText pkg "onerror"

theorem HasPattern.perm {pkgs pkgs' : List String} (h : HasPattern pkgs) (hperm : pkgs.Perm pkgs') :
    HasPattern pkgs' := by
  have hword : ∀ {word}, (∃ pkg ∈ pkgs, containsText pkg word) →
      ∃ pkg ∈ pkgs', containsText pkg word := by
    rintro word ⟨pkg, hpkg, hcontains⟩
    exact ⟨pkg, hperm.mem_iff.mp hpkg, hcontains⟩
  exact ⟨hword h.javascript, hword h.window, hword h.onerror⟩

structure Query.Forbidden (q : Query) : Prop where
  javascript : containsText q.text "javascript"
  window : containsText q.text "window"
  onerror : containsText q.text "onerror"

/-- The packages with a word in their names. -/
def withWord (pkgs : List String) (word : String) : List String :=
  pkgs.filter fun pkg => containsText pkg word

/-- The packages are distinct, so the queries have each of them once. -/
structure QueriesAllowed (pkgs : List String) (call : BulkCall) : Prop where
  once : (call.queries.flatMap Query.packages).Perm pkgs
  nonempty : ∀ q ∈ call.queries, q.packages ≠ []
  allowed : ∀ q ∈ call.queries, q.Forbidden → q.packages.length = 1
  asserts : call.result ≠ .error .assertion

/-! ## Words in texts -/

section Words

variable {pkgs : List String} {word : String}

theorem containsText_intercalate (hword : word.toList ≠ []) (hcomma : ',' ∉ word.toList) :
    containsText (",".intercalate pkgs) word ↔ ∃ pkg ∈ pkgs, containsText pkg word := by
  have htext : (",".intercalate pkgs).toList = [','].intercalate (pkgs.map String.toList) :=
    String.toList_intercalate
  simp only [containsText, decide_eq_true_eq, htext,
    Separators.infix_intercalate_iff hword hcomma, List.mem_map, exists_exists_and_eq_and]

theorem Query.forbidden_iff (q : Query) : q.Forbidden ↔ HasPattern q.packages := by
  cases q with
  | single pkg =>
    constructor
    · intro h
      exact ⟨⟨pkg, List.mem_singleton_self pkg, h.javascript⟩,
        ⟨pkg, List.mem_singleton_self pkg, h.window⟩, ⟨pkg, List.mem_singleton_self pkg, h.onerror⟩⟩
    · intro h
      have hword : ∀ {word}, (∃ p ∈ [pkg], containsText p word) → containsText pkg word := by
        rintro word ⟨p, hp, hcontains⟩
        rwa [← List.mem_singleton.mp hp]
      exact ⟨hword h.javascript, hword h.window, hword h.onerror⟩
  | bulk pkgs =>
    constructor
    · intro h
      exact ⟨(containsText_intercalate (by decide) (by decide)).mp h.javascript,
        (containsText_intercalate (by decide) (by decide)).mp h.window,
        (containsText_intercalate (by decide) (by decide)).mp h.onerror⟩
    · intro h
      exact ⟨(containsText_intercalate (by decide) (by decide)).mpr h.javascript,
        (containsText_intercalate (by decide) (by decide)).mpr h.window,
        (containsText_intercalate (by decide) (by decide)).mpr h.onerror⟩

theorem pkgIndices_ne_nil_iff : pkgIndices pkgs word ≠ [] ↔ ∃ pkg ∈ pkgs, containsText pkg word := by
  rw [pkgIndices, ne_eq, List.filterMap_eq_nil_iff]
  push Not
  constructor
  · rintro ⟨e, he, hsome⟩
    refine ⟨e.1, ?_, ?_⟩
    · have hmem : e.1 ∈ pkgs.zipIdx.map Prod.fst := List.mem_map_of_mem he
      rwa [List.zipIdx_map_fst] at hmem
    · by_contra hno
      exact hsome (if_neg hno)
  · rintro ⟨pkg, hpkg, hcontains⟩
    rw [← List.zipIdx_map_fst 0 pkgs] at hpkg
    obtain ⟨e, he, rfl⟩ := List.mem_map.mp hpkg
    exact ⟨e, he, by simp [hcontains]⟩

/-- The packages at the indices, where `before` are those that have been passed. -/
theorem getElem?_indices (before pkgs : List String) :
    ((pkgs.zipIdx before.length).filterMap fun e =>
        if containsText e.1 word then some e.2 else none).filterMap
          (fun i => (before ++ pkgs)[i]?) =
      withWord pkgs word := by
  rw [withWord]
  induction pkgs generalizing before with
  | nil => rfl
  | cons pkg pkgs ih =>
    have hrest := ih (before ++ [pkg])
    rw [List.length_append, List.length_singleton, List.append_assoc, List.singleton_append] at hrest
    by_cases hcontains : containsText pkg word
    · simp [List.zipIdx_cons, hcontains, hrest]
    · simp [List.zipIdx_cons, hcontains, hrest]

theorem javascriptPkgs_eq (pkgs : List String) : javascriptPkgs pkgs = withWord pkgs "javascript" :=
  getElem?_indices [] pkgs

end Words

/-! ## The calls -/

section Calls

variable {answers : ApiAnswers} {pkgs : List String}

/-- A query for one package is not a bulk query. -/
def queryOf : List String → Query
  | [pkg] => .single pkg
  | pkgs => .bulk pkgs

theorem packages_queryOf (pkgs : List String) : (queryOf pkgs).packages = pkgs := by
  rcases pkgs with _ | ⟨pkg, _ | ⟨pkg', pkgs⟩⟩ <;> rfl

theorem realBulkquery_nil : realBulkquery answers [] = ⟨[], .error .assertion⟩ := rfl

theorem realBulkquery_eq (hone : 1 ≤ pkgs.length) (hlimit : pkgs.length ≤ 128) :
    realBulkquery answers pkgs = issue answers (queryOf pkgs) := by
  rcases pkgs with _ | ⟨pkg, _ | ⟨pkg', pkgs⟩⟩
  · simp at hone
  · rfl
  · simp only [List.length_cons] at hlimit
    rw [realBulkquery, if_pos]
    · rfl
    · simp only [List.length_cons]
      omega
    · simp

theorem issue_asserts (answers : ApiAnswers) (q : Query) : (issue answers q).result ≠ .error .assertion := by
  rw [issue]
  dsimp only
  split <;> simp

theorem map_asserts {result : Except BulkStop BulkApiResult} (h : result ≠ .error .assertion)
    (f : BulkApiResult → BulkApiResult) : result.map f ≠ .error .assertion := by
  rcases result with e | m
  · exact h
  · simp [Except.map]

/-- A call that is not split. -/
theorem queriesAllowed_issue_iff (hone : 1 ≤ pkgs.length) {result : Except BulkStop BulkApiResult}
    (hresult : result ≠ .error .assertion) {all : List String} :
    QueriesAllowed all ⟨[queryOf pkgs], result⟩ ↔
      pkgs.Perm all ∧ (HasPattern pkgs → pkgs.length = 1) := by
  constructor
  · intro h
    constructor
    · have honce := h.once
      rwa [List.flatMap_singleton, packages_queryOf] at honce
    · intro hpattern
      have hallowed := h.allowed (queryOf pkgs) (List.mem_singleton_self _)
      rw [Query.forbidden_iff, packages_queryOf] at hallowed
      exact hallowed hpattern
  · rintro ⟨hperm, hpattern⟩
    constructor
    · rwa [List.flatMap_singleton, packages_queryOf]
    · intro q hq
      rw [List.mem_singleton.mp hq, packages_queryOf]
      exact List.ne_nil_of_length_pos hone
    · intro q hq hforbidden
      rw [List.mem_singleton.mp hq, Query.forbidden_iff, packages_queryOf] at hforbidden
      rw [List.mem_singleton.mp hq, packages_queryOf]
      exact hpattern hforbidden
    · exact hresult

theorem parts_perm (pkgs : List String) :
    (withWord pkgs "javascript" ++ nonJavascriptPkgs pkgs).Perm pkgs :=
  List.filter_append_perm _ pkgs

theorem nonJavascriptPkgs_ne_nil_iff :
    nonJavascriptPkgs pkgs ≠ [] ↔ ∃ pkg ∈ pkgs, ¬ containsText pkg "javascript" := by
  simp [nonJavascriptPkgs]

theorem not_hasPattern_nonJavascriptPkgs : ¬ HasPattern (nonJavascriptPkgs pkgs) := by
  intro h
  obtain ⟨pkg, hmem, hcontains⟩ := h.javascript
  have hnot := (List.mem_filter.mp hmem).2
  rw [hcontains] at hnot
  cases hnot

/-- The first part is all of the packages just when the other one is empty. -/
theorem withWord_perm_iff :
    (withWord pkgs "javascript").Perm pkgs ↔ nonJavascriptPkgs pkgs = [] := by
  have hparts := parts_perm pkgs
  constructor
  · intro h
    have hlength := hparts.length_eq
    rw [List.length_append, h.length_eq] at hlength
    exact List.eq_nil_of_length_eq_zero (by omega)
  · intro h
    rwa [h, List.append_nil] at hparts

theorem bulkqueryNpmMetrics_unsplit (h : ¬ HasPattern pkgs) :
    bulkqueryNpmMetrics answers pkgs = realBulkquery answers pkgs := by
  rw [bulkqueryNpmMetrics, if_neg]
  simp only [pkgIndices_ne_nil_iff]
  rintro ⟨hjavascript, hwindow, honerror⟩
  exact h ⟨hjavascript, hwindow, honerror⟩

/-- The second part is queried when the first one is answered. -/
theorem bulkqueryNpmMetrics_split (h : HasPattern pkgs) :
    bulkqueryNpmMetrics answers pkgs =
      match (realBulkquery answers (withWord pkgs "javascript")).result with
      | .error _ => realBulkquery answers (withWord pkgs "javascript")
      | .ok map =>
        ⟨(realBulkquery answers (withWord pkgs "javascript")).queries ++
            (realBulkquery answers (nonJavascriptPkgs pkgs)).queries,
          (realBulkquery answers (nonJavascriptPkgs pkgs)).result.map fun otherMap =>
            otherMap.toList.foldl (fun map e => map.insert e.1 e.2) map⟩ := by
  rw [bulkqueryNpmMetrics, if_pos]
  · dsimp only
    rw [javascriptPkgs_eq]
  · simp only [pkgIndices_ne_nil_iff]
    exact ⟨h.javascript, h.window, h.onerror⟩

/-- Two parts are queried, where both are there. -/
theorem queriesAllowed_parts_iff {first other : List String} (hfirst : 1 ≤ first.length)
    (hother : 1 ≤ other.length) (hpattern : ¬ HasPattern other) {all : List String}
    (hperm : (first ++ other).Perm all) {result : Except BulkStop BulkApiResult}
    (hresult : result ≠ .error .assertion) :
    QueriesAllowed all ⟨[queryOf first, queryOf other], result⟩ ↔
      (HasPattern first → first.length = 1) := by
  constructor
  · intro h hforbidden
    have hallowed := h.allowed (queryOf first) List.mem_cons_self
    rw [Query.forbidden_iff, packages_queryOf] at hallowed
    exact hallowed hforbidden
  · intro h
    constructor
    · simpa [packages_queryOf] using hperm
    · intro q hq
      rcases List.mem_pair.mp hq with rfl | rfl
      · rw [packages_queryOf]
        exact List.ne_nil_of_length_pos hfirst
      · rw [packages_queryOf]
        exact List.ne_nil_of_length_pos hother
    · intro q hq hforbidden
      rw [Query.forbidden_iff] at hforbidden
      rcases List.mem_pair.mp hq with rfl | rfl
      · rw [packages_queryOf] at hforbidden ⊢
        exact h hforbidden
      · rw [packages_queryOf] at hforbidden
        exact absurd hforbidden hpattern
    · exact hresult

/-- A call is right if and only if it has nothing to split, or both of its parts are there and
that of javascript is a single package or lacks a word; after an error of the first part, only a
call for a single package is. -/
theorem queriesAllowed_iff (answers : ApiAnswers) (pkgs : List String) (hone : 1 ≤ pkgs.length)
    (hlimit : pkgs.length ≤ 128) :
    QueriesAllowed pkgs (bulkqueryNpmMetrics answers pkgs) ↔
      (HasPattern pkgs → if ((queryOf (withWord pkgs "javascript")).run answers).isOk then
        (∃ pkg ∈ pkgs, ¬ containsText pkg "javascript") ∧
          (HasPattern (withWord pkgs "javascript") → (withWord pkgs "javascript").length = 1)
        else pkgs.length = 1) := by
  by_cases hpattern : HasPattern pkgs
  · have hparts := (parts_perm pkgs).length_eq
    rw [List.length_append] at hparts
    have hfirst : 1 ≤ (withWord pkgs "javascript").length := by
      obtain ⟨pkg, hpkg, hcontains⟩ := hpattern.javascript
      exact List.length_pos_of_mem (List.mem_filter.mpr ⟨hpkg, hcontains⟩)
    rw [bulkqueryNpmMetrics_split hpattern, realBulkquery_eq hfirst (by omega)]
    simp only [hpattern, forall_const]
    cases hrun : (queryOf (withWord pkgs "javascript")).run answers with
    | error s =>
      have hissue : issue answers (queryOf (withWord pkgs "javascript")) =
          ⟨[queryOf (withWord pkgs "javascript")], .error (.stop s)⟩ := by
        rw [issue, hrun]
      rw [hissue]
      dsimp only
      rw [queriesAllowed_issue_iff hfirst (by simp), if_neg (by simp [Except.isOk, Except.toBool])]
      constructor
      · rintro ⟨hperm, hallowed⟩
        rw [← hperm.length_eq]
        exact hallowed (hpattern.perm hperm.symm)
      · intro hsingle
        have hother : nonJavascriptPkgs pkgs = [] := List.eq_nil_of_length_eq_zero (by omega)
        exact ⟨withWord_perm_iff.mpr hother, fun _ => by omega⟩
    | ok map =>
      have hissue : issue answers (queryOf (withWord pkgs "javascript")) =
          ⟨[queryOf (withWord pkgs "javascript")], .ok map⟩ := by
        rw [issue, hrun]
      rw [hissue]
      dsimp only
      rw [if_pos (by rfl), ← nonJavascriptPkgs_ne_nil_iff]
      by_cases hother : nonJavascriptPkgs pkgs = []
      · rw [hother, realBulkquery_nil]
        constructor
        · intro h
          exact absurd rfl h.asserts
        · rintro ⟨hne, -⟩
          exact absurd rfl hne
      · have hlength : 1 ≤ (nonJavascriptPkgs pkgs).length := List.length_pos_iff.mpr hother
        rw [realBulkquery_eq hlength (by omega)]
        have hasserts := issue_asserts answers (queryOf (nonJavascriptPkgs pkgs))
        rw [and_iff_right hother]
        exact queriesAllowed_parts_iff hfirst hlength not_hasPattern_nonJavascriptPkgs
          (parts_perm pkgs) (map_asserts hasserts _)
  · rw [bulkqueryNpmMetrics_unsplit hpattern, realBulkquery_eq hone hlimit, issue,
      queriesAllowed_issue_iff hone]
    · simp [hpattern]
    · split <;> simp

end Calls

/-- Every query is answered. -/
def sampleAnswers : ApiAnswers := ⟨fun _ => [.ok (oneDay "2015-01-10" 7)], fun _ => [.ok ∅]⟩

theorem queriesAllowed_iff_threeWords :
    QueriesAllowed ["a-javascript", "b-window", "c-onerror", "d-window-onerror"]
      (bulkqueryNpmMetrics sampleAnswers
        ["a-javascript", "b-window", "c-onerror", "d-window-onerror"]) := by
  apply (queriesAllowed_iff sampleAnswers _ (by decide) (by decide)).mpr
  intro _
  rw [if_pos (by decide +kernel)]
  exact ⟨⟨"b-window", by decide, by decide⟩, fun _ => by decide⟩

/-- The part of javascript has all words in it, or the other part is empty. -/
theorem not_queriesAllowed :
    ¬ QueriesAllowed ["a-javascript-window", "b-javascript-onerror", "c"]
      (bulkqueryNpmMetrics sampleAnswers ["a-javascript-window", "b-javascript-onerror", "c"]) ∧
    ¬ QueriesAllowed ["a-javascript-window-onerror"]
      (bulkqueryNpmMetrics sampleAnswers ["a-javascript-window-onerror"]) := by
  constructor
  · intro h
    have hqueries : (bulkqueryNpmMetrics sampleAnswers
        ["a-javascript-window", "b-javascript-onerror", "c"]).queries =
        [.bulk ["a-javascript-window", "b-javascript-onerror"], .single "c"] := by
      decide +kernel
    have hallowed := h.allowed (.bulk ["a-javascript-window", "b-javascript-onerror"])
    rw [hqueries] at hallowed
    have hlength := hallowed List.mem_cons_self
      ⟨by decide +kernel, by decide +kernel, by decide +kernel⟩
    exact absurd hlength (by decide)
  · intro h
    have hresult : (bulkqueryNpmMetrics sampleAnswers ["a-javascript-window-onerror"]).result matches
        .error .assertion := by
      decide +kernel
    have hasserts := h.asserts
    split at hresult
    · next heq => exact hasserts heq
    · cases hresult

end NpmFollower.DownloadMetrics
