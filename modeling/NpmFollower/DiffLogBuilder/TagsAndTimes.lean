import NpmFollower.DiffLogBuilder.VersionKeys
import NpmFollower.DiffLogBuilder.VersionBlobs

/-! # Tags and times of a normal packument

The latest tag is taken out of the tags and may go back into them. The times of
the versions come from one object, from the versions themselves, or are made up.
-/

namespace NpmFollower.DiffLogBuilder

open Std PostgresDb Parsers

variable (P : Parsers)

/-- The text of the latest tag of a document. -/
def LatestTag (j : JsonMap) (text : String) : Prop :=
  ∃ distTags : JsonMap, j.get "dist-tags" = some (.object distTags) ∧
    distTags.get "latest" = some (.string text)

/-- An entry of a time object that names a version, and its time. -/
def TimeOf (timeObject : JsonMap) (v : Semver) (t : DateTime) : Prop :=
  ∃ key text, (key, .string text) ∈ timeObject ∧ key ≠ "created" ∧ key ≠ "modified" ∧
    P.parseSemver key = some v ∧ P.parseDatetime text = some t

def TimeEntry (j : JsonMap) (v : Semver) (t : DateTime) : Prop :=
  ∃ timeObject : JsonMap, j.get "time" = some (.object timeObject) ∧ TimeOf P timeObject v t

/-- A version of a document with its own time in it. -/
def VersionTime (j : JsonMap) (v : Semver) (t : DateTime) : Prop :=
  ∃ (vm : JsonMap) (key : String) (o : JsonMap), j.get "versions" = some (.object vm) ∧ (key, .object o) ∈ vm ∧
    P.parseSemver key = some v ∧ OwnCtime P o t

/-- The tags and the times that a normal packument is read as. Where several entries of the time
object name one version, it has the time of one of them. -/
structure TagsAndTimes (j : JsonMap) (latest : Option Semver) (modified : DateTime)
    (otherDistTags : JsonMap) (extraVersionTimes : BTreeMap Semver DateTime)
    (versions : AllVersionPackuments) : Prop where
  latest_mem : ∀ l, latest = some l →
    l ∈ versions ∧ ∃ text, LatestTag j text ∧ P.parseSemver text = some l
  latest_kept : latest = none → ∀ text, LatestTag j text →
    (∀ l, P.parseSemver text = some l → l.toString = text) →
      otherDistTags.get "latest" = some (.string text)
  other_tags : ∀ distTags : JsonMap, j.get "dist-tags" = some (.object distTags) →
    ∀ key ≠ "latest", otherDistTags.get key = distTags.get key
  extra_mem : ∀ v, v ∈ extraVersionTimes ↔ v ∉ versions ∧ ∃ t, TimeEntry P j v t
  extra_time : ∀ v t, extraVersionTimes[v]? = some t → TimeEntry P j v t
  time : j.containsKey "time" → ∀ (v : Semver) (d : VersionOnlyPackument), versions[v]? = some d →
    TimeEntry P j v d.time ∨ ((∀ t, ¬TimeEntry P j v t) ∧ d.time = modified)
  time_ctime : ¬j.containsKey "time" → j.containsKey "ctime" → ∀ (v : Semver) (d : VersionOnlyPackument), versions[v]? = some d →
    VersionTime P j v d.time
  time_missing : ¬j.containsKey "time" → ¬j.containsKey "ctime" →
    P.parseDatetime "2015-01-01T00:00:00.000Z" = some modified ∧
      ∀ (v : Semver) (d : VersionOnlyPackument), versions[v]? = some d → d.time = modified

variable {P}

section Tags

/-- The latest tag, taken out of the tags and perhaps put back. -/
theorem cases_of_deserializeLatestTag {distTags rest : JsonMap} {latest : Option Semver}
    (hm : (distTags.map Prod.fst).Nodup)
    (h : P.deserializeLatestTag distTags = some (latest, rest)) :
    (∀ key ≠ "latest", rest.get key = distTags.get key) ∧
      ((latest = none ∧ distTags.get "latest" = none) ∨
        ∃ text, distTags.get "latest" = some (.string text) ∧ latest = P.parseSemver text ∧
          (latest = none → rest.get "latest" = some (.string text))) := by
  rw [deserializeLatestTag] at h
  obtain ⟨⟨tag, tags⟩, hremove, h⟩ := Option.bind_eq_some_iff.mp h
  have hne : ∀ key ≠ "latest", (distTags.remove "latest").2.get key = distTags.get key :=
    fun key hne => JsonMap.get_remove_of_ne hm hne
  rw [snd_of_removeKeyUnwrapType hremove] at h
  cases tag with
  | none =>
    cases h
    exact ⟨hne, Or.inl ⟨rfl, get_of_removeKeyUnwrapType_none hremove⟩⟩
  | some text =>
    obtain ⟨w, hw, hws, -⟩ := get_of_removeKeyUnwrapType hremove
    rw [asString_eq_some hws] at hw
    cases hv : P.parseSemver text with
    | some v =>
      simp only [hv] at h
      cases h
      exact ⟨hne, Or.inr ⟨text, hw, hv.symm, fun hnone => by cases hnone⟩⟩
    | none =>
      simp only [hv] at h
      cases h
      refine ⟨fun key hkey => ?_, Or.inr ⟨text, hw, hv.symm, fun _ => ?_⟩⟩
      · rw [JsonMap.get_insert, if_neg hkey, hne key hkey]
      · rw [JsonMap.get_insert, if_pos rfl]

/-- The latest version is kept or put back among the tags. -/
theorem cases_of_checkLatest (latest : Option Semver) (versions : AllVersionPackuments)
    (distTags : JsonMap) :
    (∀ key ≠ "latest", (checkLatest latest versions distTags).2.get key = distTags.get key) ∧
      ((latest = none ∧ checkLatest latest versions distTags = (none, distTags)) ∨
        ∃ l, latest = some l ∧
          ((l ∈ versions ∧ (checkLatest latest versions distTags).1 = some l) ∨
            (l ∉ versions ∧ (checkLatest latest versions distTags).1 = none ∧
              (checkLatest latest versions distTags).2.get "latest" =
                some (.string l.toString)))) := by
  cases latest with
  | none => exact ⟨fun _ _ => rfl, Or.inl ⟨rfl, rfl⟩⟩
  | some l =>
    rw [checkLatest]
    split_ifs with hl
    · exact ⟨fun _ _ => rfl, Or.inr ⟨l, rfl, Or.inl ⟨hl, rfl⟩⟩⟩
    · refine ⟨fun key hkey => ?_, Or.inr ⟨l, rfl, Or.inr ⟨hl, rfl, ?_⟩⟩⟩
      · rw [JsonMap.get_insert, if_neg hkey]
      · rw [JsonMap.get_insert, if_pos rfl]

end Tags

section Times

/-- The versions of a time object are those that its entries name. -/
theorem times_of_deserializeTimesNormal {j rest : JsonMap} {times : ParsedTimesData}
    (h : P.deserializeTimesNormal j = some (times, rest)) :
    ∃ timeObject : JsonMap, j.get "time" = some (.object timeObject) ∧
      (∀ v t, times.versionTimes.1[v]? = some t → TimeOf P timeObject v t) ∧
      ∀ v t, TimeOf P timeObject v t → v ∈ times.versionTimes.1 := by
  rw [deserializeTimesNormal] at h
  obtain ⟨⟨raw, j1⟩, hremove, h⟩ := Option.bind_eq_some_iff.mp h
  obtain ⟨timeObject, hraw, h⟩ := Option.bind_eq_some_iff.mp h
  obtain ⟨entries, hentries, h⟩ := Option.bind_eq_some_iff.mp h
  obtain ⟨created, -, h⟩ := Option.bind_eq_some_iff.mp h
  obtain ⟨modified, -, h⟩ := Option.bind_eq_some_iff.mp h
  cases h
  rw [show raw = some timeObject from hraw] at hremove
  obtain ⟨w, hw, hwo, -⟩ := get_of_removeKeyUnwrapType hremove
  rw [asObject_eq_some hwo] at hw
  have hpairs := Folds.forall₂_of_mapM hentries
  have hentry (e : String × Value) (r : String × DateTime)
      (her : (do return (e.1, ← P.parseDatetime (← e.2.asString))) = some r) :
      ∃ text, e = (r.1, .string text) ∧ P.parseDatetime text = some r.2 := by
    obtain ⟨text, htext, her⟩ := Option.bind_eq_some_iff.mp her
    obtain ⟨t, ht, her⟩ := Option.bind_eq_some_iff.mp her
    cases her
    exact ⟨text, by rw [← asString_eq_some htext], ht⟩
  have hrest (k : String) (t : DateTime) :
      (k, t) ∈ (((ExtTreeMap.ofList entries compare).erase "created").erase "modified").toList ↔
        k ≠ "created" ∧ k ≠ "modified" ∧
          (ExtTreeMap.ofList entries compare : BTreeMap String DateTime)[k]? = some t := by
    rw [ExtTreeMap.mem_toList_iff_getElem?_eq_some, FiniteMap.getElem?_erase,
      FiniteMap.getElem?_erase]
    by_cases h1 : "modified" = k
    · simp [← h1]
    · by_cases h2 : "created" = k
      · simp [← h2]
      · simp [h1, h2, Ne.symm h1, Ne.symm h2]
  refine ⟨timeObject, hw, ?_, ?_⟩
  · intro v t hv
    obtain ⟨⟨k, t'⟩, hmem, hmap⟩ := List.mem_filterMap.mp (FiniteMap.mem_of_getElem?_ofList hv)
    obtain ⟨v', hparse, heq⟩ := Option.map_eq_some_iff.mp hmap
    cases heq
    obtain ⟨hcreated, hmodified, hget⟩ := (hrest k _).mp hmem
    obtain ⟨n, hn, hnth⟩ := List.mem_iff_getElem.mp (FiniteMap.mem_of_getElem?_ofList hget)
    have hn' : n < timeObject.length := by rwa [hpairs.length_eq]
    obtain ⟨text, he, htext⟩ := hentry _ _ (hpairs.get hn' hn)
    rw [List.get_eq_getElem, List.get_eq_getElem, hnth] at he
    rw [List.get_eq_getElem, hnth] at htext
    exact ⟨k, text, he ▸ List.getElem_mem hn', hcreated, hmodified, hparse, htext⟩
  · rintro v t ⟨key, text, hmem, hcreated, hmodified, hparse, htime⟩
    obtain ⟨n, hn, hnth⟩ := List.mem_iff_getElem.mp hmem
    have hn' : n < entries.length := by rwa [← hpairs.length_eq]
    obtain ⟨text', he, -⟩ := hentry _ _ (hpairs.get hn hn')
    rw [List.get_eq_getElem, hnth, List.get_eq_getElem, Prod.mk.injEq] at he
    have hkey : key ∈ (ExtTreeMap.ofList entries compare : BTreeMap String DateTime) :=
      FiniteMap.mem_ofList_iff.mpr ⟨entries[n].2, by
        rw [he.1]
        exact List.getElem_mem hn'⟩
    obtain ⟨t', ht'⟩ := FiniteMap.mem_iff_getElem?.mp hkey
    refine FiniteMap.mem_ofList_iff.mpr ⟨t', List.mem_filterMap.mpr
      ⟨(key, t'), (hrest key t').mpr ⟨hcreated, hmodified, ht'⟩, ?_⟩⟩
    rw [hparse]
    rfl

/-- In the old format every version has a time of its own. -/
theorem times_of_deserializeTimesCtime {j rest : JsonMap} {times : ParsedTimesData}
    (hj : (j.map Prod.fst).Nodup) (h : P.deserializeTimesCtime j = some (times, rest))
    {vm : JsonMap} (hvm : rest.get "versions" = some (.object vm)) :
    (∀ v t, times.versionTimes.1[v]? = some t → VersionTime P j v t) ∧
      ∀ v, v ∈ times.versionTimes.1 ↔ ∃ e ∈ vm, P.parseSemver e.1 = some v := by
  rw [deserializeTimesCtime] at h
  obtain ⟨⟨_, j1⟩, h1, h⟩ := Option.bind_eq_some_iff.mp h
  obtain ⟨⟨_, j2⟩, h2, h⟩ := Option.bind_eq_some_iff.mp h
  obtain ⟨_, -, h⟩ := Option.bind_eq_some_iff.mp h
  obtain ⟨_, -, h⟩ := Option.bind_eq_some_iff.mp h
  obtain ⟨_, -, h⟩ := Option.bind_eq_some_iff.mp h
  obtain ⟨_, -, h⟩ := Option.bind_eq_some_iff.mp h
  obtain ⟨w, hw, h⟩ := Option.bind_eq_some_iff.mp h
  obtain ⟨vm0, hvm0, h⟩ := Option.bind_eq_some_iff.mp h
  obtain ⟨read, hread, h⟩ := Option.bind_eq_some_iff.mp h
  cases h
  have hj1 := JsonMap.nodup_remove hj "ctime"
  rw [asObject_eq_some hvm0, snd_of_removeKeyUnwrapType h2, snd_of_removeKeyUnwrapType h1,
    JsonMap.get_remove_of_ne hj1 (by decide), JsonMap.get_remove_of_ne hj (by decide)] at hw
  rw [JsonMap.get_insert, if_pos rfl, Option.some.injEq, Value.object.injEq] at hvm
  subst hvm
  have hpairs := (Folds.forall₂_of_mapM hread).imp fun _ _ h => versionCtime_eq_some h
  constructor
  · intro v t hv
    obtain ⟨r, hr, heq⟩ := List.mem_map.mp (FiniteMap.mem_of_getElem?_ofList hv)
    obtain ⟨n, hn, rfl⟩ := List.mem_iff_getElem.mp hr
    have hn' : n < vm0.length := by rwa [hpairs.length_eq]
    obtain ⟨-, hparse, o, ho, hown⟩ := hpairs.get hn' hn
    rw [List.get_eq_getElem, List.get_eq_getElem, heq] at hparse
    rw [List.get_eq_getElem] at ho
    rw [List.get_eq_getElem, heq] at hown
    exact ⟨vm0, vm0[n].1, o, hw, by rw [← ho]; exact List.getElem_mem hn', hparse, hown⟩
  · intro v
    rw [FiniteMap.mem_ofList_iff]
    have hkey (n : ℕ) (hn : n < read.length) :
        P.parseSemver read[n].2.1 = some read[n].1.1 := by
      have hn' : n < vm0.length := by rwa [hpairs.length_eq]
      obtain ⟨hsame, hparse, -⟩ := hpairs.get hn' hn
      rw [List.get_eq_getElem, List.get_eq_getElem] at hparse
      rw [← hparse]
      exact congrArg P.parseSemver hsame.1
    constructor
    · rintro ⟨t, ht⟩
      obtain ⟨r, hr, heq⟩ := List.mem_map.mp ht
      obtain ⟨n, hn, rfl⟩ := List.mem_iff_getElem.mp hr
      refine ⟨_, List.mem_map_of_mem hr, ?_⟩
      rw [hkey n hn, heq]
    · rintro ⟨e, he, hparse⟩
      obtain ⟨r, hr, rfl⟩ := List.mem_map.mp he
      obtain ⟨n, hn, rfl⟩ := List.mem_iff_getElem.mp hr
      rw [hkey n hn, Option.some.injEq] at hparse
      exact ⟨read[n].1.2, List.mem_map.mpr ⟨_, hr, by rw [← hparse]⟩⟩

/-- Without times every version has the same made up time. -/
theorem times_of_deserializeTimesMissing {j rest : JsonMap} {times : ParsedTimesData}
    (h : P.deserializeTimesMissingFakeIt j = some (times, rest)) :
    P.parseDatetime "2015-01-01T00:00:00.000Z" = some times.modified ∧
      (∀ (v : Semver) (t : DateTime), times.versionTimes.1[v]? = some t → t = times.modified) ∧
      ∃ vm : JsonMap, rest.get "versions" = some (.object vm) ∧
        ∀ v, v ∈ times.versionTimes.1 → ∃ e ∈ vm, P.parseSemver e.1 = some v := by
  rw [deserializeTimesMissingFakeIt] at h
  obtain ⟨fakeTime, hfake, h⟩ := Option.bind_eq_some_iff.mp h
  obtain ⟨w, hw, h⟩ := Option.bind_eq_some_iff.mp h
  obtain ⟨vm, hvm, h⟩ := Option.bind_eq_some_iff.mp h
  obtain ⟨read, hread, h⟩ := Option.bind_eq_some_iff.mp h
  cases h
  rw [asObject_eq_some hvm] at hw
  have hpairs := Folds.forall₂_of_mapM hread
  have hentry (e : String × Value) (r : Semver × DateTime) (her : (do
      let vObj ← e.2.asObject
      guard (¬ vObj.containsKey "time" ∧ ¬ vObj.containsKey "ctime" ∧ ¬ vObj.containsKey "mtime")
      return (← P.parseSemver e.1, fakeTime)) = some r) :
      P.parseSemver e.1 = some r.1 ∧ r.2 = fakeTime := by
    obtain ⟨_, -, her⟩ := Option.bind_eq_some_iff.mp her
    obtain ⟨_, -, her⟩ := Option.bind_eq_some_iff.mp her
    obtain ⟨v, hv, her⟩ := Option.bind_eq_some_iff.mp her
    cases her
    exact ⟨hv, rfl⟩
  have hmem (r : Semver × DateTime) (hr : r ∈ read) :
      ∃ e ∈ vm, P.parseSemver e.1 = some r.1 ∧ r.2 = fakeTime := by
    obtain ⟨n, hn, rfl⟩ := List.mem_iff_getElem.mp hr
    have hn' : n < vm.length := by rwa [hpairs.length_eq]
    exact ⟨vm[n], List.getElem_mem hn', hentry _ _ (hpairs.get hn' hn)⟩
  refine ⟨hfake, ?_, vm, hw, ?_⟩
  · intro v t hv
    obtain ⟨-, -, -, ht⟩ := hmem _ (FiniteMap.mem_of_getElem?_ofList hv)
    exact ht
  · intro v hv
    obtain ⟨t, ht⟩ := FiniteMap.mem_ofList_iff.mp hv
    obtain ⟨e, he, hparse, -⟩ := hmem _ ht
    exact ⟨e, he, hparse⟩

theorem time_of_deserializeVersionBlob {blob : JsonMap} {version : Semver}
    {times : BTreeMap Semver DateTime} {modified : DateTime} {data : VersionOnlyPackument}
    (h : P.deserializeVersionBlob blob version times modified = some data) :
    data.time = times[version]?.getD modified := by
  rw [deserializeVersionBlob] at h
  obtain ⟨_, -, h⟩ := Option.bind_eq_some_iff.mp h
  obtain ⟨_, -, h⟩ := Option.bind_eq_some_iff.mp h
  obtain ⟨_, -, h⟩ := Option.bind_eq_some_iff.mp h
  obtain ⟨_, -, h⟩ := Option.bind_eq_some_iff.mp h
  obtain ⟨_, -, h⟩ := Option.bind_eq_some_iff.mp h
  obtain ⟨_, -, h⟩ := Option.bind_eq_some_iff.mp h
  obtain ⟨_, -, h⟩ := Option.bind_eq_some_iff.mp h
  obtain ⟨_, -, h⟩ := Option.bind_eq_some_iff.mp h
  cases h
  rfl

end Times

section Run

variable {j : JsonMap} {packageData : PackageOnlyPackument} {versions : AllVersionPackuments}

/-- The data of a returned version is that of an entry of the versions object. -/
theorem Parsers.NormalRun.exists_of_getElem? (R : P.NormalRun j packageData versions) {v : Semver}
    {d : VersionOnlyPackument} (h : versions[v]? = some d) :
    (∃ e ∈ R.versionsMap, P.parseSemver e.1 = some v) ∧
      d.time = R.times.versionTimes.1[v]?.getD R.times.modified := by
  rw [R.versions_eq] at h
  obtain ⟨n, hn, hnth⟩ := List.mem_iff_getElem.mp (FiniteMap.mem_of_getElem?_ofList h)
  have hn' : n < R.versionsMap.length := by rwa [R.forall₂_entries.length_eq]
  have hread := R.forall₂_entries.get hn' hn
  rw [List.get_eq_getElem, List.get_eq_getElem, hnth] at hread
  refine ⟨⟨_, List.getElem_mem hn', parseSemver_of_readVersion hread⟩, ?_⟩
  rw [readVersion] at hread
  obtain ⟨v', -, hread⟩ := Option.bind_eq_some_iff.mp hread
  obtain ⟨_, -, hread⟩ := Option.bind_eq_some_iff.mp hread
  obtain ⟨d', hd, hread⟩ := Option.bind_eq_some_iff.mp hread
  cases hread
  exact time_of_deserializeVersionBlob hd

theorem Parsers.NormalRun.mem_versions (R : P.NormalRun j packageData versions) {v : Semver}
    {e : String × Value} (he : e ∈ R.versionsMap) (hv : P.parseSemver e.1 = some v) :
    v ∈ versions := by
  obtain ⟨n, hn, rfl⟩ := List.mem_iff_getElem.mp he
  have hn' : n < R.entries.length := by rwa [← R.forall₂_entries.length_eq]
  have hparse := parseSemver_of_readVersion (R.forall₂_entries.get hn hn')
  rw [List.get_eq_getElem, List.get_eq_getElem, hv, Option.some.injEq] at hparse
  have hmem : v ∈ ExtTreeMap.ofList R.entries compare :=
    FiniteMap.mem_ofList_iff.mpr ⟨R.entries[n].2, by rw [hparse]; exact List.getElem_mem hn'⟩
  rwa [← R.versions_eq] at hmem

end Run

section Main

variable {j : JsonMap} {packageData : PackageOnlyPackument} {versions : AllVersionPackuments}

theorem mem_of_getElem?_some {m : BTreeMap Semver DateTime} {v : Semver} {t : DateTime}
    (h : m[v]? = some t) : v ∈ m := FiniteMap.mem_iff_getElem?.mpr ⟨t, h⟩

/-- What the times of a run are, for each of the three formats. -/
theorem Parsers.NormalRun.times_spec (R : P.NormalRun j packageData versions)
    (hj : (j.map Prod.fst).Nodup) :
    (∀ v, v ∈ R.times.versionTimes.1.filter (fun v _ => v ∉ versions) ↔
      v ∉ versions ∧ ∃ t, TimeEntry P j v t) ∧
    (∀ (v : Semver) (t : DateTime), R.times.versionTimes.1[v]? = some t → v ∉ versions →
      TimeEntry P j v t) ∧
    (j.containsKey "time" → ∀ (v : Semver) (d : VersionOnlyPackument), versions[v]? = some d →
      TimeEntry P j v d.time ∨ ((∀ t, ¬TimeEntry P j v t) ∧ d.time = R.times.modified)) ∧
    (¬j.containsKey "time" → j.containsKey "ctime" → ∀ (v : Semver) (d : VersionOnlyPackument),
      versions[v]? = some d → VersionTime P j v d.time) ∧
    (¬j.containsKey "time" → ¬j.containsKey "ctime" →
      P.parseDatetime "2015-01-01T00:00:00.000Z" = some R.times.modified ∧
        ∀ (v : Semver) (d : VersionOnlyPackument), versions[v]? = some d →
          d.time = R.times.modified) := by
  have hget (key : String) (hne : key ≠ "dist-tags") :
      (j.remove "dist-tags").2.get key = j.get key := JsonMap.get_remove_of_ne hj hne
  have hcontains (key : String) (hne : key ≠ "dist-tags") :
      (j.remove "dist-tags").2.containsKey key = j.containsKey key := by
    rw [JsonMap.containsKey, JsonMap.containsKey, hget key hne]
  have hfilter (v : Semver) : v ∈ R.times.versionTimes.1.filter (fun v _ => v ∉ versions) ↔
      v ∈ R.times.versionTimes.1 ∧ v ∉ versions := by
    rw [ExtTreeMap.mem_filter]
    simp
  have hnotime (hkey : ¬j.containsKey "time" = true) (v : Semver) (t : DateTime) :
      ¬TimeEntry P j v t := by
    rintro ⟨timeObject, hobject, -⟩
    exact hkey (JsonMap.containsKey_iff.mpr ⟨_, hobject⟩)
  have htimes := R.times_eq
  rw [deserializeTimes, hcontains "time" (by decide), hcontains "ctime" (by decide),
    hcontains "mtime" (by decide)] at htimes
  split_ifs at htimes with htime hctime hmtime
  · obtain ⟨timeObject, hobject, hsound, hcomplete⟩ := times_of_deserializeTimesNormal htimes
    rw [hget "time" (by decide)] at hobject
    have hentry (v : Semver) (t : DateTime) : TimeEntry P j v t ↔ TimeOf P timeObject v t := by
      constructor
      · rintro ⟨timeObject', hobject', hof⟩
        rw [hobject, Option.some.injEq, Value.object.injEq] at hobject'
        rwa [hobject']
      · exact fun hof => ⟨timeObject, hobject, hof⟩
    refine ⟨?_, ?_, ?_, fun hno => absurd htime hno, fun hno => absurd htime hno⟩
    · intro v
      rw [hfilter, and_comm]
      apply and_congr_right
      intro _
      constructor
      · intro hmem
        obtain ⟨t, ht⟩ := FiniteMap.mem_iff_getElem?.mp hmem
        exact ⟨t, (hentry v t).mpr (hsound v t ht)⟩
      · rintro ⟨t, ht⟩
        exact hcomplete v t ((hentry v t).mp ht)
    · exact fun v t ht _ => (hentry v t).mpr (hsound v t ht)
    · intro _ v d hd
      obtain ⟨-, hdtime⟩ := R.exists_of_getElem? hd
      cases ht : R.times.versionTimes.1[v]? with
      | some t =>
        left
        rw [hdtime, ht]
        exact (hentry v t).mpr (hsound v t ht)
      | none =>
        right
        refine ⟨fun t hof => ?_, by rw [hdtime, ht]; rfl⟩
        obtain ⟨t', ht'⟩ := FiniteMap.mem_iff_getElem?.mp (hcomplete v t ((hentry v t).mp hof))
        rw [ht] at ht'
        cases ht'
  · obtain ⟨hsound, hmem⟩ := times_of_deserializeTimesCtime (JsonMap.nodup_remove hj "dist-tags")
      htimes R.versionsMap_eq
    have hreturned (v : Semver) (hv : v ∈ R.times.versionTimes.1) : v ∈ versions := by
      obtain ⟨e, he, hparse⟩ := (hmem v).mp hv
      exact R.mem_versions he hparse
    refine ⟨?_, ?_, fun hyes => absurd hyes htime, ?_, fun _ hno => absurd hctime hno⟩
    · intro v
      rw [hfilter]
      constructor
      · rintro ⟨hv, hnot⟩
        exact absurd (hreturned v hv) hnot
      · rintro ⟨-, t, ht⟩
        exact absurd ht (hnotime htime v t)
    · exact fun v t ht hnot => absurd (hreturned v (mem_of_getElem?_some ht)) hnot
    · intro _ _ v d hd
      obtain ⟨hversion, hdtime⟩ := R.exists_of_getElem? hd
      obtain ⟨t, ht⟩ := FiniteMap.mem_iff_getElem?.mp ((hmem v).mpr hversion)
      obtain ⟨vm, key, o, hvm, hrest⟩ := hsound v t ht
      rw [hget "versions" (by decide)] at hvm
      rw [hdtime, ht]
      exact ⟨vm, key, o, hvm, hrest⟩
  · obtain ⟨hfake, hsame, vm, hvm, hmem⟩ := times_of_deserializeTimesMissing htimes
    rw [R.versionsMap_eq, Option.some.injEq, Value.object.injEq] at hvm
    subst hvm
    have hreturned (v : Semver) (hv : v ∈ R.times.versionTimes.1) : v ∈ versions := by
      obtain ⟨e, he, hparse⟩ := hmem v hv
      exact R.mem_versions he hparse
    refine ⟨?_, ?_, fun hyes => absurd hyes htime, fun _ hyes => absurd hyes hctime,
      fun _ _ => ⟨hfake, ?_⟩⟩
    · intro v
      rw [hfilter]
      constructor
      · rintro ⟨hv, hnot⟩
        exact absurd (hreturned v hv) hnot
      · rintro ⟨-, t, ht⟩
        exact absurd ht (hnotime htime v t)
    · exact fun v t ht hnot => absurd (hreturned v (mem_of_getElem?_some ht)) hnot
    · intro v d hd
      obtain ⟨-, hdtime⟩ := R.exists_of_getElem? hd
      cases ht : R.times.versionTimes.1[v]? with
      | none => rw [hdtime, ht]; rfl
      | some t => rw [hdtime, ht, hsame v t ht]; rfl

/-- The tags and the times of every document on which the deserialiser does not panic. -/
theorem tagsAndTimes_of_normal (P : Parsers) (U : SemverSpecSerialization.Unicode)
    (hj : (j.map Prod.fst).Nodup)
    (htags : ∀ distTags : JsonMap, j.get "dist-tags" = some (.object distTags) →
      (distTags.map Prod.fst).Nodup)
    (h : (P.withSemver U).deserializePackumentBlobNormal j = some (packageData, versions)) :
    ∃ latest created modified otherDistTags extraVersionTimes,
      packageData = .normal latest created modified otherDistTags extraVersionTimes ∧
      TagsAndTimes (P.withSemver U) j latest modified otherDistTags extraVersionTimes versions := by
  obtain ⟨R⟩ := exists_normalRun _ h
  obtain ⟨hother, hlatest⟩ := cases_of_deserializeLatestTag (htags _ R.distTags_eq) R.latest_eq
  obtain ⟨hkept, hchecked⟩ := cases_of_checkLatest R.latest versions R.restTags
  obtain ⟨hextra, hextraTime, htime, hctime, hmissing⟩ := R.times_spec hj
  have htagText (text : String) : LatestTag j text ↔
      R.distTags.get "latest" = some (.string text) := by
    constructor
    · rintro ⟨distTags, hdist, htext⟩
      rw [R.distTags_eq, Option.some.injEq, Value.object.injEq] at hdist
      rwa [hdist]
    · exact fun htext => ⟨R.distTags, R.distTags_eq, htext⟩
  refine ⟨_, _, _, _, _, R.packageData_eq, ?_⟩
  constructor
  case latest_mem =>
    intro l hl
    rcases hchecked with ⟨-, hnone⟩ | ⟨l', hl', ⟨hmem, hsome⟩ | ⟨-, hnone, -⟩⟩
    · rw [hnone] at hl
      cases hl
    · rw [hsome, Option.some.injEq] at hl
      subst hl
      rcases hlatest with ⟨hno, -⟩ | ⟨text, htext, hparse, -⟩
      · rw [hno] at hl'
        cases hl'
      · exact ⟨hmem, text, (htagText text).mpr htext, by rw [← hparse, hl']⟩
    · rw [hnone] at hl
      cases hl
  case latest_kept =>
    intro hnone text htext hcanonical
    rw [htagText] at htext
    rcases hlatest with ⟨-, hno⟩ | ⟨text', htext', hparse, hback⟩
    · rw [hno] at htext
      cases htext
    · rw [htext, Option.some.injEq, Value.string.injEq] at htext'
      subst htext'
      rcases hchecked with ⟨hnolatest, hsame⟩ | ⟨l, hl, ⟨-, hsome⟩ | ⟨-, -, hput⟩⟩
      · rw [hsame]
        exact hback hnolatest
      · rw [hsome] at hnone
        cases hnone
      · rw [hput, hcanonical l (by rw [← hparse, hl])]
  case other_tags =>
    intro distTags hdist key hne
    rw [R.distTags_eq, Option.some.injEq, Value.object.injEq] at hdist
    rw [hkept key hne, hother key hne, hdist]
  case extra_mem => exact hextra
  case extra_time =>
    intro v t hv
    have hmem := (hextra v).mp (mem_of_getElem?_some hv)
    have hget : R.times.versionTimes.1[v]? = some t := by
      rw [ExtTreeMap.getElem?_filter] at hv
      exact Option.eq_some_of_pfilter_eq_some hv
    exact hextraTime v t hget hmem.1
  case time => exact htime
  case time_ctime => exact hctime
  case time_missing => exact hmissing

end Main

section Formats

open SemverSpecSerialization

/-- Parsers for two dates. -/
def dateParsers : Parsers :=
  { sampleParsers with
    parseFromRfc3339 := fun s =>
      if s = "2015-01-01T00:00:00.000Z" then some 1420070400000
      else if s = "2012-01-01T00:00:00.000Z" then some 1325376000000
      else none }

/-- A document in the old format, whose version has no times. -/
def oldFormat : JsonMap :=
  [("dist-tags", .object []), ("ctime", .string "2012-01-01T00:00:00.000Z"),
    ("mtime", .string "2012-01-01T00:00:00.000Z"),
    ("versions", .object [("1.0.0", .object [("dist", .object [("tarball", .string "a")])])])]

/-- A document with a time object and a latest tag. -/
def timeFormat : JsonMap :=
  [("dist-tags", .object [("latest", .string "1.0.0")]),
    ("time", .object [("created", .string "2012-01-01T00:00:00.000Z"),
      ("modified", .string "2015-01-01T00:00:00.000Z"),
      ("1.0.0", .string "2012-01-01T00:00:00.000Z")]),
    ("versions", .object [("1.0.0", .object [("dist", .object [("tarball", .string "a")])])])]

/-- The modified time and the time of version 1.0.0. -/
def modifiedAndTime (r : PackageOnlyPackument × AllVersionPackuments) :
    Option (DateTime × Option DateTime) :=
  match r.1 with
  | .normal _ _ modified _ _ =>
    some (modified, r.2[(⟨1, 0, 0, [], []⟩ : Semver)]?.map VersionOnlyPackument.time)
  | _ => none

theorem modifiedAndTime_oldFormat : ((dateParsers.withSemver asciiDigits).deserializePackumentBlobNormal
      oldFormat).bind modifiedAndTime = some (1325376000000, some 1420070400000) ∧
    ((dateParsers.withSemver asciiDigits).deserializePackumentBlobNormal timeFormat).isSome := by
  decide +kernel

/-- In the old format a version without times has a fixed time, not the modified time. -/
theorem not_time_oldFormat : ¬∀ (P : Parsers) (U : Unicode) (j : JsonMap) (latest : Option Semver)
    (created modified : DateTime) (otherDistTags : JsonMap)
    (extraVersionTimes : BTreeMap Semver DateTime) (versions : AllVersionPackuments),
    (j.map Prod.fst).Nodup →
    (P.withSemver U).deserializePackumentBlobNormal j =
      some (.normal latest created modified otherDistTags extraVersionTimes, versions) →
    ∀ (v : Semver) (d : VersionOnlyPackument), versions[v]? = some d →
      (∀ t, TimeEntry (P.withSemver U) j v t → d.time = t) ∧
        ((∀ t, ¬TimeEntry (P.withSemver U) j v t) → d.time = modified) := by
  intro hall
  obtain ⟨⟨packageData, versions⟩, hrun, hvalue⟩ :=
    Option.bind_eq_some_iff.mp modifiedAndTime_oldFormat.1
  cases packageData with
  | normal latest created modified tags extra =>
    simp only [modifiedAndTime, Option.some.injEq, Prod.mk.injEq] at hvalue
    obtain ⟨hmodified, htime⟩ := hvalue
    obtain ⟨d, hd, hdtime⟩ := Option.map_eq_some_iff.mp htime
    have hentry (t : DateTime) : ¬TimeEntry (dateParsers.withSemver asciiDigits) oldFormat
        ⟨1, 0, 0, [], []⟩ t := by
      rintro ⟨timeObject, hobject, -⟩
      have hnone : oldFormat.get "time" = none := rfl
      rw [hnone] at hobject
      cases hobject
    have hsame := (hall dateParsers asciiDigits oldFormat latest created modified tags extra versions
      (by decide) hrun _ d hd).2 hentry
    rw [hdtime, hmodified] at hsame
    exact absurd hsame (by decide)
  | unpublished => cases hvalue
  | missingData => cases hvalue
  | deleted => cases hvalue

/-- A document with a time object. -/
theorem tagsAndTimes_timeFormat : ∃ packageData versions latest created modified otherDistTags
    extraVersionTimes, (dateParsers.withSemver asciiDigits).deserializePackumentBlobNormal timeFormat =
      some (packageData, versions) ∧
    packageData = .normal latest created modified otherDistTags extraVersionTimes ∧
    TagsAndTimes (dateParsers.withSemver asciiDigits) timeFormat latest modified otherDistTags
      extraVersionTimes versions := by
  obtain ⟨⟨packageData, versions⟩, hrun⟩ :=
    Option.isSome_iff_exists.mp modifiedAndTime_oldFormat.2
  have htags (distTags : JsonMap) (h : timeFormat.get "dist-tags" = some (.object distTags)) :
      (distTags.map Prod.fst).Nodup := by
    have hget : timeFormat.get "dist-tags" = some (.object [("latest", .string "1.0.0")]) := rfl
    rw [hget, Option.some.injEq, Value.object.injEq] at h
    rw [← h]
    decide
  obtain ⟨latest, created, modified, tags, extra, hdata, hspec⟩ :=
    tagsAndTimes_of_normal dateParsers asciiDigits (by decide) htags hrun
  exact ⟨packageData, versions, latest, created, modified, tags, extra, hrun, hdata, hspec⟩

end Formats

end NpmFollower.DiffLogBuilder
