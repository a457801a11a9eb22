import NpmFollower.PostgresDb.JsonMaps
import NpmFollower.DiffLogBuilder.Deserialize
import NpmFollower.Library.FiniteMap
import NpmFollower.Library.Folds
import NpmFollower.SemverSpecSerialization.Spelling

/-! # What a normal packument is read from

The steps of the deserialiser of a normal packument, undone: from a document on
which it does not panic, the tags, the times and the entries of its versions.
-/

namespace NpmFollower.DiffLogBuilder

open Std PostgresDb

/-- The parsers with the parser of versions. -/
def Parsers.withSemver (P : Parsers) (U : SemverSpecSerialization.Unicode) : Parsers :=
  { P with parseSemver := fun s => (SemverSpecSerialization.parseSemver U s).toOption }

namespace Parsers

variable (P : Parsers)

/-- One entry of the versions object. -/
def readVersion (versionTimes : BTreeMap Semver DateTime) (modified : DateTime)
    (e : String × Value) : Option (Semver × VersionOnlyPackument) := do
  let version ← P.parseSemver e.1
  return (version, ← P.deserializeVersionBlob (← e.2.asObject) version versionTimes modified)

/-- The values that the deserialiser of a normal packument comes by. -/
structure NormalRun (j : JsonMap) (packageData : PackageOnlyPackument)
    (versions : AllVersionPackuments) where
  distTags : JsonMap
  latest : Option Semver
  restTags : JsonMap
  times : ParsedTimesData
  rest : JsonMap
  versionsMap : JsonMap
  entries : List (Semver × VersionOnlyPackument)
  distTags_eq : j.get "dist-tags" = some (.object distTags)
  latest_eq : P.deserializeLatestTag distTags = some (latest, restTags)
  times_eq : P.deserializeTimes (j.remove "dist-tags").2 = some (times, rest)
  versionsMap_eq : rest.get "versions" = some (.object versionsMap)
  entries_eq : versionsMap.mapM (P.readVersion times.versionTimes.1 times.modified) = some entries
  versions_eq : versions = ExtTreeMap.ofList entries compare
  packageData_eq : packageData = .normal (checkLatest latest versions restTags).1 times.created
    times.modified (checkLatest latest versions restTags).2
    (times.versionTimes.1.filter fun v _ => v ∉ versions)

theorem get_of_removeKeyUnwrapType {α : Type} {decode : Value → Option α} {m rest : JsonMap}
    {key : String} {a : α} (h : m.removeKeyUnwrapType decode key = some (some a, rest)) :
    ∃ v, m.get key = some v ∧ decode v = some a ∧ rest = (m.remove key).2 := by
  rw [JsonMap.removeKeyUnwrapType] at h
  split at h
  case h_1 => cases h
  case h_2 v rest' hremove =>
    obtain ⟨b, hb, heq⟩ := Option.map_eq_some_iff.mp h
    cases heq
    refine ⟨v, ?_, hb, by rw [hremove]⟩
    rw [← JsonMap.remove_fst, hremove]

theorem asObject_eq_some {v : Value} {m : JsonMap} (h : v.asObject = some m) : v = .object m := by
  cases v <;> simp_all [Value.asObject]

theorem asString_eq_some {v : Value} {s : String} (h : v.asString = some s) : v = .string s := by
  cases v <;> simp_all [Value.asString]

/-- A document on which the deserialiser does not panic has such a run. -/
theorem exists_normalRun {j : JsonMap} {packageData : PackageOnlyPackument}
    {versions : AllVersionPackuments}
    (h : P.deserializePackumentBlobNormal j = some (packageData, versions)) :
    Nonempty (P.NormalRun j packageData versions) := by
  rw [deserializePackumentBlobNormal] at h
  obtain ⟨⟨tags, j1⟩, htags, h⟩ := Option.bind_eq_some_iff.mp h
  obtain ⟨distTags, hdistTags, h⟩ := Option.bind_eq_some_iff.mp h
  obtain ⟨⟨latest, restTags⟩, hlatest, h⟩ := Option.bind_eq_some_iff.mp h
  obtain ⟨⟨times, rest⟩, htimes, h⟩ := Option.bind_eq_some_iff.mp h
  obtain ⟨⟨vm, rest'⟩, hversions, h⟩ := Option.bind_eq_some_iff.mp h
  obtain ⟨versionsMap, hversionsMap, h⟩ := Option.bind_eq_some_iff.mp h
  obtain ⟨entries, hentries, h⟩ := Option.bind_eq_some_iff.mp h
  rw [show tags = some distTags from hdistTags] at htags
  rw [show vm = some versionsMap from hversionsMap] at hversions
  obtain ⟨v, hv, hvobject, hj1⟩ := get_of_removeKeyUnwrapType htags
  obtain ⟨w, hw, hwobject, -⟩ := get_of_removeKeyUnwrapType hversions
  rw [asObject_eq_some hvobject] at hv
  rw [asObject_eq_some hwobject] at hw
  cases h
  exact ⟨distTags, latest, restTags, times, rest, versionsMap, entries, hv, hlatest,
    hj1 ▸ htimes, hw, hentries, rfl, rfl⟩

section Versions

/-- The object of a version without the times that the old format keeps in it. -/
def SameVersion (e e' : String × Value) : Prop :=
  e'.1 = e.1 ∧ (e'.2 = e.2 ∨
    ∃ o : JsonMap, e.2 = .object o ∧ e'.2 = .object ((o.remove "ctime").2.remove "mtime").2)

variable {P}

theorem snd_of_removeKeyUnwrapType {α : Type} {decode : Value → Option α} {m rest : JsonMap}
    {key : String} {a : Option α} (h : m.removeKeyUnwrapType decode key = some (a, rest)) :
    rest = (m.remove key).2 := by
  rw [JsonMap.removeKeyUnwrapType] at h
  split at h
  case h_1 rest' hremove =>
    cases h
    have hnone : (m.remove key).1 = none := by rw [hremove]
    rw [JsonMap.remove] at hremove ⊢
    split
    case h_1 i last hi hlast =>
      rw [hi, hlast] at hremove
      simp only [Prod.mk.injEq] at hremove
      have hget := hremove.1
      obtain ⟨hlt, hkey, -⟩ := List.findIdx?_eq_some_iff_getElem.mp hi
      rw [JsonMap.get, List.lookup_eq_none_iff] at hget
      have hne := hget m[i] (List.getElem_mem hlt)
      simp only [beq_iff_eq] at hkey
      rw [hkey] at hne
      simp at hne
    case h_2 => rfl
  case h_2 v rest' hremove =>
    obtain ⟨b, -, heq⟩ := Option.map_eq_some_iff.mp h
    cases heq
    rw [hremove]

theorem get_of_removeKeyUnwrapType_none {α : Type} {decode : Value → Option α} {m rest : JsonMap}
    {key : String} (h : m.removeKeyUnwrapType decode key = some (none, rest)) :
    m.get key = none := by
  rw [JsonMap.removeKeyUnwrapType] at h
  split at h
  case h_1 rest' hremove => rw [← JsonMap.remove_fst, hremove]
  case h_2 v rest' hremove =>
    obtain ⟨b, -, heq⟩ := Option.map_eq_some_iff.mp h
    cases heq

/-- The time that a version of the old format has: its own, or a fixed one. -/
def OwnCtime (P : Parsers) (o : JsonMap) (time : DateTime) : Prop :=
  (∃ c, o.get "ctime" = some (.string c) ∧ P.parseDatetime c = some time) ∨
    (o.get "ctime" = none ∧ P.parseDatetime "2015-01-01T00:00:00.000Z" = some time)

theorem versionCtime_eq_some {e : String × Value} {r : (Semver × DateTime) × (String × Value)}
    (h : P.versionCtime e = some r) : SameVersion e r.2 ∧ P.parseSemver e.1 = some r.1.1 ∧
      ∃ o, e.2 = .object o ∧ OwnCtime P o r.1.2 := by
  rw [versionCtime] at h
  obtain ⟨o, ho, h⟩ := Option.bind_eq_some_iff.mp h
  obtain ⟨⟨created, o1⟩, h1, h⟩ := Option.bind_eq_some_iff.mp h
  obtain ⟨⟨modified, o2⟩, h2, h⟩ := Option.bind_eq_some_iff.mp h
  have hend {x : Option DateTime} (hown : ∀ time, x = some time → OwnCtime P o time)
      (hx : (x.bind fun time => (P.parseSemver e.1).bind fun v =>
        some ((v, time), (e.1, Value.object o2))) = some r) :
      SameVersion e r.2 ∧ P.parseSemver e.1 = some r.1.1 ∧
        ∃ o, e.2 = .object o ∧ OwnCtime P o r.1.2 := by
    obtain ⟨time, htime, hx⟩ := Option.bind_eq_some_iff.mp hx
    obtain ⟨v, hv, hx⟩ := Option.bind_eq_some_iff.mp hx
    cases hx
    refine ⟨⟨rfl, Or.inr ⟨o, asObject_eq_some ho, ?_⟩⟩, hv, o, asObject_eq_some ho, hown _ htime⟩
    rw [snd_of_removeKeyUnwrapType h2, snd_of_removeKeyUnwrapType h1]
  cases created with
  | none =>
    cases modified with
    | none => exact hend (fun time htime => Or.inr ⟨get_of_removeKeyUnwrapType_none h1, htime⟩) h
    | some m => cases h
  | some c =>
    obtain ⟨w, hw, hws, -⟩ := get_of_removeKeyUnwrapType h1
    rw [asString_eq_some hws] at hw
    cases modified with
    | none => cases h
    | some m =>
      dsimp only at h
      split_ifs at h
      · exact hend (fun time htime => Or.inl ⟨c, hw, htime⟩) h
      · cases h

/-- Reading the times leaves the versions of a document. -/
theorem versions_of_deserializeTimes {j rest : JsonMap} {times : ParsedTimesData}
    (hj : (j.map Prod.fst).Nodup) (h : P.deserializeTimes j = some (times, rest)) {vm : JsonMap}
    (hvm : rest.get "versions" = some (.object vm)) :
    ∃ vm0, j.get "versions" = some (.object vm0) ∧ List.Forall₂ SameVersion vm0 vm := by
  have hsame : List.Forall₂ SameVersion vm vm := List.forall₂_same.mpr fun e _ => ⟨rfl, Or.inl rfl⟩
  rw [deserializeTimes] at h
  split_ifs at h
  · rw [deserializeTimesNormal] at h
    obtain ⟨⟨timeRaw, j1⟩, hremove, h⟩ := Option.bind_eq_some_iff.mp h
    obtain ⟨_, -, h⟩ := Option.bind_eq_some_iff.mp h
    obtain ⟨_, -, h⟩ := Option.bind_eq_some_iff.mp h
    obtain ⟨_, -, h⟩ := Option.bind_eq_some_iff.mp h
    obtain ⟨_, -, h⟩ := Option.bind_eq_some_iff.mp h
    cases h
    rw [snd_of_removeKeyUnwrapType hremove, JsonMap.get_remove_of_ne hj (by decide)] at hvm
    exact ⟨vm, hvm, hsame⟩
  · rw [deserializeTimesCtime] at h
    obtain ⟨⟨_, j1⟩, h1, h⟩ := Option.bind_eq_some_iff.mp h
    obtain ⟨⟨_, j2⟩, h2, h⟩ := Option.bind_eq_some_iff.mp h
    obtain ⟨_, -, h⟩ := Option.bind_eq_some_iff.mp h
    obtain ⟨_, -, h⟩ := Option.bind_eq_some_iff.mp h
    obtain ⟨_, -, h⟩ := Option.bind_eq_some_iff.mp h
    obtain ⟨_, -, h⟩ := Option.bind_eq_some_iff.mp h
    obtain ⟨v, hv, h⟩ := Option.bind_eq_some_iff.mp h
    obtain ⟨vm0, hvm0, h⟩ := Option.bind_eq_some_iff.mp h
    obtain ⟨versions, hversions, h⟩ := Option.bind_eq_some_iff.mp h
    cases h
    have hj1 := JsonMap.nodup_remove hj "ctime"
    rw [asObject_eq_some hvm0, snd_of_removeKeyUnwrapType h2, snd_of_removeKeyUnwrapType h1,
      JsonMap.get_remove_of_ne hj1 (by decide), JsonMap.get_remove_of_ne hj (by decide)] at hv
    rw [JsonMap.get_insert, if_pos rfl] at hvm
    cases hvm
    refine ⟨vm0, hv, ?_⟩
    rw [List.forall₂_map_right_iff]
    exact (Folds.forall₂_of_mapM hversions).imp fun _ _ h => (versionCtime_eq_some h).1
  · rw [deserializeTimesMissingFakeIt] at h
    obtain ⟨_, -, h⟩ := Option.bind_eq_some_iff.mp h
    obtain ⟨_, -, h⟩ := Option.bind_eq_some_iff.mp h
    obtain ⟨_, -, h⟩ := Option.bind_eq_some_iff.mp h
    obtain ⟨_, -, h⟩ := Option.bind_eq_some_iff.mp h
    cases h
    exact ⟨vm, hvm, hsame⟩

/-- The versions object of the document, entry by entry. -/
theorem NormalRun.versions_get {j : JsonMap} {packageData : PackageOnlyPackument}
    {versions : AllVersionPackuments} (R : P.NormalRun j packageData versions)
    (hj : (j.map Prod.fst).Nodup) : ∃ vm, j.get "versions" = some (.object vm) ∧
      List.Forall₂ SameVersion vm R.versionsMap := by
  obtain ⟨vm, hvm, hsame⟩ := versions_of_deserializeTimes (JsonMap.nodup_remove hj "dist-tags")
    R.times_eq R.versionsMap_eq
  rw [JsonMap.get_remove_of_ne hj (by decide)] at hvm
  exact ⟨vm, hvm, hsame⟩

end Versions

end Parsers

end NpmFollower.DiffLogBuilder
