import NpmFollower.DiffLogBuilder.NormalPackument

/-! # What is kept of a version blob

The fields of a version are taken out of its object one after the other; what
cannot be read goes back into it, and what is left becomes the extra metadata.
-/

namespace NpmFollower.DiffLogBuilder

open Std PostgresDb Parsers

/-- The dependency fields. -/
def dependencyKeys : List String :=
  ["dependencies", "devDependencies", "peerDependencies", "optionalDependencies"]

/-- The fields that are taken out. -/
def takenKeys : List String := "dist" :: "repository" :: dependencyKeys

/-- Dependencies that go back: a text or a list that is not empty. -/
def PutBack (v : Value) : Prop := (∃ s, v = .string s) ∨ ∃ x xs, v = .array (x :: xs)

variable (P : Parsers)

/-- Nothing of a version blob is lost or overwritten. -/
structure Conserved (versionBlob : JsonMap) (data : VersionOnlyPackument) : Prop where
  other : ∀ key ∉ takenKeys, ∀ v, versionBlob.get key = some v → data.extraMetadata[key]? = some v
  dependencies : ∀ key ∈ dependencyKeys, ∀ v, versionBlob.get key = some v → PutBack v →
    data.extraMetadata[key]? = some v
  repository : ∀ r, versionBlob.get "repository" = some r → r ≠ .null →
    P.deserializeRepoBlob r = some none → data.extraMetadata["repository"]? = some r

variable {P} {m m' : JsonMap} (hm : (m.map Prod.fst).Nodup)

include hm in
/-- Dependencies that are not read stay under their key. -/
theorem get_of_deserializeDependencies {key : String} {deps : List (String × Spec)}
    (h : P.deserializeDependencies m key = some (deps, m')) :
    (m'.map Prod.fst).Nodup ∧ (∀ key' ≠ key, m'.get key' = m.get key') ∧
      ∀ v, m.get key = some v → PutBack v → m'.get key = some v := by
  have hremoved : (m.remove key).1 = m.get key := JsonMap.remove_fst m key
  have hnodup := JsonMap.nodup_remove hm key
  have hget : ∀ key' ≠ key, (m.remove key).2.get key' = m.get key' :=
    fun key' hne => JsonMap.get_remove_of_ne hm hne
  have hinsert (v : Value) : ∀ key' ≠ key, ((m.remove key).2.insert key v).get key' = m.get key' := by
    intro key' hne
    rw [JsonMap.get_insert, if_neg hne, hget key' hne]
  rw [deserializeDependencies] at h
  simp only [hremoved] at h
  cases hv : m.get key with
  | none =>
    rw [hv] at h
    cases h
    exact ⟨hnodup, hget, fun _ hv' => by cases hv'⟩
  | some v =>
    rw [hv] at h
    cases v with
    | null =>
      cases h
      refine ⟨hnodup, hget, ?_⟩
      rintro _ ⟨⟩ (⟨s, hs⟩ | ⟨x, xs, hx⟩)
      · cases hs
      · cases hx
    | bool b => cases h
    | number n => cases h
    | string s =>
      cases h
      refine ⟨JsonMap.nodup_insert hnodup _ _, hinsert _, ?_⟩
      rintro _ ⟨⟩ -
      rw [JsonMap.get_insert, if_pos rfl]
    | array xs =>
      cases xs with
      | nil =>
        cases h
        refine ⟨hnodup, hget, ?_⟩
        rintro _ ⟨⟩ (⟨s, hs⟩ | ⟨x, xs, hx⟩)
        · cases hs
        · cases hx
      | cons x xs =>
        cases h
        refine ⟨JsonMap.nodup_insert hnodup _ _, hinsert _, ?_⟩
        rintro _ ⟨⟩ -
        rw [JsonMap.get_insert, if_pos rfl]
    | object raw =>
      obtain ⟨deps', -, heq⟩ := Option.bind_eq_some_iff.mp h
      cases heq
      refine ⟨hnodup, hget, ?_⟩
      rintro _ ⟨⟩ (⟨s, hs⟩ | ⟨x, xs, hx⟩)
      · cases hs
      · cases hx

/-- The repository cannot be read. -/
def Unparsed (P : Parsers) (m : JsonMap) : Prop :=
  ∃ r, m.get "repository" = some r ∧ r ≠ .null ∧ P.deserializeRepoBlob r = some none

include hm in
/-- A repository that is read or null changes no other field. -/
theorem get_of_deserializeRepository {repo : Option RepositoryInfo}
    (h : P.deserializeRepository m = some (repo, m')) :
    (m'.map Prod.fst).Nodup ∧ (∀ key, key ≠ "repository" → key ≠ "repo" → m'.get key = m.get key) ∧
      m'.get "repository" = none ∧ (¬Unparsed P m → m'.get "repo" = m.get "repo") := by
  have hremoved : (m.remove "repository").1 = m.get "repository" := JsonMap.remove_fst m _
  have hnodup := JsonMap.nodup_remove hm "repository"
  have hget : ∀ key ≠ "repository", (m.remove "repository").2.get key = m.get key :=
    fun key hne => JsonMap.get_remove_of_ne hm hne
  have hnone : (m.remove "repository").2.get "repository" = none := JsonMap.get_remove_self hm _
  have hkept (h' : m' = (m.remove "repository").2) : (m'.map Prod.fst).Nodup ∧
      (∀ key, key ≠ "repository" → key ≠ "repo" → m'.get key = m.get key) ∧
      m'.get "repository" = none ∧ (¬Unparsed P m → m'.get "repo" = m.get "repo") := by
    subst h'
    exact ⟨hnodup, fun key hne _ => hget key hne, hnone, fun _ => hget "repo" (by decide)⟩
  rw [deserializeRepository] at h
  simp only [hremoved] at h
  cases hr : (m.get "repository").bind Value.nullToNone with
  | none =>
    rw [hr] at h
    cases h
    exact hkept rfl
  | some r =>
    rw [hr] at h
    obtain ⟨parsed, hparsed, heq⟩ := Option.map_eq_some_iff.mp h
    cases parsed with
    | some info =>
      cases heq
      exact hkept rfl
    | none =>
      cases heq
      refine ⟨JsonMap.nodup_insert hnodup _ _, ?_, ?_, ?_⟩
      · intro key hne hrepo
        rw [JsonMap.get_insert, if_neg hrepo, hget key hne]
      · rw [JsonMap.get_insert, if_neg (by decide), hnone]
      · intro hunparsed
        obtain ⟨w, hw, hnull⟩ := Option.bind_eq_some_iff.mp hr
        refine absurd ⟨r, ?_, ?_, hparsed⟩ hunparsed
        · cases w <;> cases hnull <;> exact hw
        · rintro rfl
          cases w <;> cases hnull

omit hm in
theorem getElem?_ofList_get (hm : (m.map Prod.fst).Nodup) (key : String) :
    (ExtTreeMap.ofList m compare : BTreeMap String Value)[key]? = m.get key := by
  apply Option.ext
  intro v
  rw [JsonMap.get_eq_some_iff hm]
  constructor
  · exact FiniteMap.mem_of_getElem?_ofList
  · intro hmem
    refine FiniteMap.getElem?_ofList_of_forall hmem fun w hw => ?_
    exact congrArg Prod.snd (List.inj_on_of_nodup_map hm hw hmem rfl)

include hm in
/-- The object after all dependencies and the dist object are taken out. -/
theorem exists_of_deserializeVersionBlob {version : Semver} {times : BTreeMap Semver DateTime}
    {modified : DateTime} {data : VersionOnlyPackument}
    (h : P.deserializeVersionBlob m version times modified = some data) :
    ∃ blob repo rest, (blob.map Prod.fst).Nodup ∧
      (∀ key ∉ "dist" :: dependencyKeys, blob.get key = m.get key) ∧
      (∀ key ∈ dependencyKeys, ∀ v, m.get key = some v → PutBack v → blob.get key = some v) ∧
      P.deserializeRepository blob = some (repo, rest) ∧
      data.extraMetadata = ExtTreeMap.ofList rest compare ∧
      data.time = times[version]?.getD modified := by
  rw [deserializeVersionBlob] at h
  obtain ⟨⟨_, m1⟩, h1, h⟩ := Option.bind_eq_some_iff.mp h
  obtain ⟨⟨_, m2⟩, h2, h⟩ := Option.bind_eq_some_iff.mp h
  obtain ⟨⟨_, m3⟩, h3, h⟩ := Option.bind_eq_some_iff.mp h
  obtain ⟨⟨_, m4⟩, h4, h⟩ := Option.bind_eq_some_iff.mp h
  obtain ⟨⟨_, m5⟩, h5, h⟩ := Option.bind_eq_some_iff.mp h
  obtain ⟨_, -, h⟩ := Option.bind_eq_some_iff.mp h
  obtain ⟨_, -, h⟩ := Option.bind_eq_some_iff.mp h
  obtain ⟨⟨repo, rest⟩, h6, h⟩ := Option.bind_eq_some_iff.mp h
  cases h
  obtain ⟨hm1, hne1, hput1⟩ := get_of_deserializeDependencies hm h1
  obtain ⟨hm2, hne2, hput2⟩ := get_of_deserializeDependencies hm1 h2
  obtain ⟨hm3, hne3, hput3⟩ := get_of_deserializeDependencies hm2 h3
  obtain ⟨hm4, hne4, hput4⟩ := get_of_deserializeDependencies hm3 h4
  rw [snd_of_removeKeyUnwrapType h5] at h6
  have hdist : ∀ key ≠ "dist", (m4.remove "dist").2.get key = m4.get key :=
    fun key hne => JsonMap.get_remove_of_ne hm4 hne
  refine ⟨_, repo, rest, JsonMap.nodup_remove hm4 "dist", ?_, ?_, h6, rfl, rfl⟩
  · intro key hkey
    simp only [dependencyKeys, List.mem_cons, List.not_mem_nil, or_false, not_or] at hkey
    obtain ⟨hd, hk1, hk2, hk3, hk4⟩ := hkey
    rw [hdist key hd, hne4 key hk4, hne3 key hk3, hne2 key hk2, hne1 key hk1]
  · intro key hkey v hv hput
    simp only [dependencyKeys, List.mem_cons, List.not_mem_nil, or_false] at hkey
    rcases hkey with rfl | rfl | rfl | rfl
    · rw [hdist _ (by decide), hne4 _ (by decide), hne3 _ (by decide), hne2 _ (by decide)]
      exact hput1 v hv hput
    · rw [hdist _ (by decide), hne4 _ (by decide), hne3 _ (by decide)]
      exact hput2 v (by rw [hne1 _ (by decide), hv]) hput
    · rw [hdist _ (by decide), hne4 _ (by decide)]
      exact hput3 v (by rw [hne2 _ (by decide), hne1 _ (by decide), hv]) hput
    · rw [hdist _ (by decide)]
      exact hput4 v (by rw [hne3 _ (by decide), hne2 _ (by decide), hne1 _ (by decide), hv]) hput

include hm in
/-- A version blob is conserved exactly when its repository can be read or there is none. -/
theorem conserved_iff {version : Semver} {times : BTreeMap Semver DateTime} {modified : DateTime}
    {data : VersionOnlyPackument}
    (h : P.deserializeVersionBlob m version times modified = some data) :
    Conserved P m data ↔
      ∀ r, m.get "repository" = some r → r ≠ .null → P.deserializeRepoBlob r ≠ some none := by
  obtain ⟨blob, repo, rest, hblob, hother, hput, hrepo, hextra, -⟩ :=
    exists_of_deserializeVersionBlob hm h
  obtain ⟨hrest, hkept, hnone, hrepoKey⟩ := get_of_deserializeRepository hblob hrepo
  have hmeta (key : String) : data.extraMetadata[key]? = rest.get key := by
    rw [hextra, getElem?_ofList_get hrest]
  have hrepository : blob.get "repository" = m.get "repository" := hother _ (by decide)
  constructor
  · intro hconserved r hr hnull hparse
    have hback := hconserved.repository r hr hnull hparse
    rw [hmeta, hnone] at hback
    cases hback
  · intro hreadable
    have hread : ¬Unparsed P blob := by
      rintro ⟨r, hr, hnull, hparse⟩
      exact hreadable r (hrepository ▸ hr) hnull hparse
    constructor
    case other =>
      intro key hkey v hv
      simp only [takenKeys, List.mem_cons, not_or] at hkey
      have hblobKey : blob.get key = some v := by
        rw [hother key (by simp [hkey.1, hkey.2.2]), hv]
      rw [hmeta]
      by_cases hkeyRepo : key = "repo"
      · subst hkeyRepo
        rw [hrepoKey hread, hblobKey]
      · rw [hkept key hkey.2.1 hkeyRepo, hblobKey]
    case dependencies =>
      intro key hkey v hv hback
      have hne : key ≠ "repository" ∧ key ≠ "repo" := by
        simp only [dependencyKeys, List.mem_cons, List.not_mem_nil, or_false] at hkey
        rcases hkey with rfl | rfl | rfl | rfl <;> decide
      rw [hmeta, hkept key hne.1 hne.2]
      exact hput key hkey v hv hback
    case repository =>
      intro r hr hnull hparse
      exact absurd hparse (hreadable r hr hnull)

section Repository

/-- Parsers that read no repository, as is the case for every one that is no text, object or list of
one. -/
def noRepository : Parsers where
  parseSemver _ := none
  parseSpecViaNodeCached _ := none
  parseFromRfc3339 _ := none
  deserializeRepoBlob _ := some none
  display _ := ""

/-- A version with a repository and a field `repo` of its own. -/
def repositoryBlob (repository : Value) : JsonMap :=
  [("dist", .object [("tarball", .string "a")]), ("repository", repository),
    ("repo", .string "b")]

theorem deserialize_repositoryBlob : (noRepository.deserializeVersionBlob
      (repositoryBlob (.bool true)) ⟨1, 0, 0, [], []⟩ ∅ 0).isSome ∧
    (noRepository.deserializeVersionBlob (repositoryBlob .null) ⟨1, 0, 0, [], []⟩ ∅ 0).isSome := by
  decide +kernel

/-- A repository that is a truth value goes under another key, over the field that is there. -/
theorem not_conserved_repository : ¬∀ (P : Parsers) (m : JsonMap) (version : Semver)
    (times : BTreeMap Semver DateTime) (modified : DateTime) (data : VersionOnlyPackument),
    (m.map Prod.fst).Nodup → P.deserializeVersionBlob m version times modified = some data →
    Conserved P m data := by
  intro hall
  obtain ⟨data, hdata⟩ := Option.isSome_iff_exists.mp deserialize_repositoryBlob.1
  have hconserved := hall _ _ _ _ _ data (by decide) hdata
  have hback := hconserved.repository (.bool true) rfl (by simp) rfl
  obtain ⟨blob, repo, rest, hblob, -, -, hrepo, hextra, -⟩ :=
    exists_of_deserializeVersionBlob (m := repositoryBlob (.bool true)) (by decide) hdata
  obtain ⟨hrest, -, hnone, -⟩ := get_of_deserializeRepository hblob hrepo
  rw [hextra, getElem?_ofList_get hrest, hnone] at hback
  cases hback

/-- A repository that is null. -/
theorem conserved_iff_null : ∃ data, noRepository.deserializeVersionBlob (repositoryBlob .null)
      ⟨1, 0, 0, [], []⟩ ∅ 0 = some data ∧ Conserved noRepository (repositoryBlob .null) data := by
  obtain ⟨data, hdata⟩ := Option.isSome_iff_exists.mp deserialize_repositoryBlob.2
  refine ⟨data, hdata, (conserved_iff (by decide) hdata).mpr ?_⟩
  intro r hr hnull
  have hget : (repositoryBlob .null).get "repository" = some .null := rfl
  rw [hget] at hr
  cases hr
  exact absurd rfl hnull

end Repository

end NpmFollower.DiffLogBuilder
