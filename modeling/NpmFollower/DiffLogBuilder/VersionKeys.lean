import NpmFollower.DiffLogBuilder.NormalPackument

/-! # The versions of a packument by their keys

The versions of a document are collected into a map by what their keys are
parsed as. A version is lost when two keys spell one version.
-/

namespace NpmFollower.DiffLogBuilder

open Std PostgresDb Parsers

variable (P : Parsers)

/-- The map has one entry for each key of the versions object, with the data that is deserialised
from the blob of the key. -/
def KeepsVersions (j : JsonMap) (versions : AllVersionPackuments) : Prop :=
  ∃ (vm blobs : JsonMap) (times : ParsedTimesData) (rest : JsonMap),
    j.get "versions" = some (.object vm) ∧
    P.deserializeTimes (j.remove "dist-tags").2 = some (times, rest) ∧
    List.Forall₂ SameVersion vm blobs ∧ versions.size = vm.length ∧
    ∀ e ∈ blobs, ∃ r, P.readVersion times.versionTimes.1 times.modified e = some r ∧
      versions[r.1]? = some r.2

/-- No two keys of the versions object are spellings of one version. -/
def DistinctSpellings (U : SemverSpecSerialization.Unicode) (j : JsonMap) : Prop :=
  ∀ vm, j.get "versions" = some (.object vm) →
    vm.Pairwise fun e e' => ¬SemverSpecSerialization.SpelledAlike U e.1 e'.1

variable {P} {j : JsonMap} {packageData : PackageOnlyPackument} {versions : AllVersionPackuments}

theorem parseSemver_of_readVersion {times : BTreeMap Semver DateTime} {modified : DateTime}
    {e : String × Value} {r : Semver × VersionOnlyPackument}
    (h : P.readVersion times modified e = some r) : P.parseSemver e.1 = some r.1 := by
  rw [readVersion] at h
  obtain ⟨v, hv, h⟩ := Option.bind_eq_some_iff.mp h
  obtain ⟨_, -, h⟩ := Option.bind_eq_some_iff.mp h
  obtain ⟨_, -, h⟩ := Option.bind_eq_some_iff.mp h
  cases h
  exact hv

namespace Parsers.NormalRun

variable (R : P.NormalRun j packageData versions)

theorem forall₂_entries : List.Forall₂ (fun e r =>
    P.readVersion R.times.versionTimes.1 R.times.modified e = some r) R.versionsMap R.entries :=
  Folds.forall₂_of_mapM R.entries_eq

/-- The parsed keys are the keys of the entries. -/
theorem map_parseSemver (vm : JsonMap) (hvm : List.Forall₂ SameVersion vm R.versionsMap) :
    (vm.map fun e => P.parseSemver e.1) = (R.entries.map Prod.fst).map some := by
  have hkeys : (vm.map fun e => P.parseSemver e.1) =
      R.versionsMap.map fun e => P.parseSemver e.1 := by
    rw [← List.forall₂_eq_eq_eq, List.forall₂_map_left_iff, List.forall₂_map_right_iff]
    exact hvm.imp fun e e' h => by rw [h.1]
  rw [hkeys, List.map_map, ← List.forall₂_eq_eq_eq, List.forall₂_map_left_iff,
    List.forall₂_map_right_iff]
  exact R.forall₂_entries.imp fun _ _ => parseSemver_of_readVersion

/-- The size of the map says whether keys have met. -/
theorem size_eq_iff {vm : JsonMap} (hvm : List.Forall₂ SameVersion vm R.versionsMap) :
    versions.size = vm.length ↔ (vm.map fun e => P.parseSemver e.1).Nodup := by
  have hlength : vm.length = R.entries.length := hvm.length_eq.trans R.forall₂_entries.length_eq
  rw [R.map_parseSemver vm hvm, List.nodup_map_iff (Option.some_injective _), hlength]
  have hsize := FiniteMap.size_ofList_eq_iff R.entries
  rwa [← R.versions_eq] at hsize

/-- Where no keys meet every entry is in the map. -/
theorem getElem?_of_mem (hdistinct : (R.entries.map Prod.fst).Nodup)
    {r : Semver × VersionOnlyPackument} (hr : r ∈ R.entries) : versions[r.1]? = some r.2 := by
  have hget : (ExtTreeMap.ofList R.entries compare)[r.1]? = some r.2 := by
    apply FiniteMap.getElem?_ofList_of_forall hr
    intro b hb
    have hsame := List.inj_on_of_nodup_map hdistinct hb hr rfl
    exact congrArg Prod.snd hsame
  rwa [← R.versions_eq] at hget

end Parsers.NormalRun

theorem toOption_eq_some {ε α : Type} {x : Except ε α} {a : α} (h : x.toOption = some a) :
    x = .ok a := by
  cases x with
  | error e => cases h
  | ok b => cases h; rfl

/-- Keys that are parsed are parsed as different versions when their spellings differ. -/
theorem nodup_map_parseSemver_iff (P : Parsers) (U : SemverSpecSerialization.Unicode) {vm : JsonMap}
    (hvm : ∀ e ∈ vm, ((P.withSemver U).parseSemver e.1).isSome) :
    (vm.map fun e => (P.withSemver U).parseSemver e.1).Nodup ↔
      vm.Pairwise fun e e' => ¬SemverSpecSerialization.SpelledAlike U e.1 e'.1 := by
  have hpair (e e' : String × Value) (he : e ∈ vm) (he' : e' ∈ vm) :
      (P.withSemver U).parseSemver e.1 ≠ (P.withSemver U).parseSemver e'.1 ↔
        ¬SemverSpecSerialization.SpelledAlike U e.1 e'.1 := by
    obtain ⟨v, hv⟩ := Option.isSome_iff_exists.mp (hvm e he)
    obtain ⟨v', hv'⟩ := Option.isSome_iff_exists.mp (hvm e' he')
    rw [← SemverSpecSerialization.parseSemver_eq_iff (toOption_eq_some hv) (toOption_eq_some hv'),
      hv, hv', ne_eq, Option.some.injEq]
  rw [List.Nodup, List.pairwise_map]
  constructor
  · intro h
    exact h.imp_of_mem fun he he' hne => (hpair _ _ he he').mp hne
  · intro h
    exact h.imp_of_mem fun he he' hne => (hpair _ _ he he').mpr hne

/-- The versions of a document are kept exactly when no two of their keys spell one version. -/
theorem keepsVersions_iff (P : Parsers) (U : SemverSpecSerialization.Unicode)
    (hj : (j.map Prod.fst).Nodup)
    (h : (P.withSemver U).deserializePackumentBlobNormal j = some (packageData, versions)) :
    KeepsVersions (P.withSemver U) j versions ↔ DistinctSpellings U j := by
  obtain ⟨R⟩ := exists_normalRun _ h
  obtain ⟨vm, hvm, hsame⟩ := R.versions_get hj
  have hparsed : ∀ e ∈ vm, ((P.withSemver U).parseSemver e.1).isSome := by
    intro e he
    have hmem : (P.withSemver U).parseSemver e.1 ∈
        vm.map fun e => (P.withSemver U).parseSemver e.1 := List.mem_map.mpr ⟨e, he, rfl⟩
    rw [R.map_parseSemver vm hsame] at hmem
    obtain ⟨v, -, hv⟩ := List.mem_map.mp hmem
    rw [← hv]
    rfl
  constructor
  · rintro ⟨vm', blobs, times, rest, hvm', -, -, hsize, -⟩ vm'' hvm''
    rw [hvm', Option.some.injEq, Value.object.injEq] at hvm''
    rw [hvm, Option.some.injEq, Value.object.injEq] at hvm'
    rw [← hvm'] at hvm'' hsize
    rw [← hvm'']
    exact (nodup_map_parseSemver_iff P U hparsed).mp ((R.size_eq_iff hsame).mp hsize)
  · intro hdistinct
    have hnodup := (nodup_map_parseSemver_iff P U hparsed).mpr (hdistinct vm hvm)
    refine ⟨vm, R.versionsMap, R.times, R.rest, hvm, R.times_eq, hsame,
      (R.size_eq_iff hsame).mpr hnodup, ?_⟩
    rw [R.map_parseSemver vm hsame, List.nodup_map_iff (Option.some_injective _)] at hnodup
    intro e he
    obtain ⟨n, hn, rfl⟩ := List.mem_iff_getElem.mp he
    have hn' : n < R.entries.length := by rwa [← R.forall₂_entries.length_eq]
    exact ⟨R.entries[n], R.forall₂_entries.get hn hn',
      R.getElem?_of_mem hnodup (List.getElem_mem hn')⟩

section Keys

open SemverSpecSerialization

/-- A document with two versions under the given keys. -/
def twoVersions (key key' : String) : JsonMap :=
  [("dist-tags", .object []), ("versions", .object [
    (key, .object [("dist", .object [("tarball", .string "a")])]),
    (key', .object [("dist", .object [("tarball", .string "b")])])])]

theorem deserialize_twoVersions :
    ((sampleParsers.withSemver asciiDigits).deserializePackumentBlobNormal
        (twoVersions "1.0.0" "v1.0.0")).map (fun r => r.2.size) = some 1 ∧
      ((sampleParsers.withSemver asciiDigits).deserializePackumentBlobNormal
        (twoVersions "1.0.0" "2.0.0")).isSome := by
  decide +kernel

/-- The versions under the keys `1.0.0` and `v1.0.0` become one. -/
theorem not_keepsVersions_prefix : ¬∀ (P : Parsers) (U : Unicode) (j : JsonMap)
    (packageData : PackageOnlyPackument) (versions : AllVersionPackuments),
    (j.map Prod.fst).Nodup →
    (P.withSemver U).deserializePackumentBlobNormal j = some (packageData, versions) →
    KeepsVersions (P.withSemver U) j versions := by
  intro hall
  obtain ⟨⟨packageData, versions⟩, hrun, hone⟩ :=
    Option.map_eq_some_iff.mp deserialize_twoVersions.1
  obtain ⟨vm, blobs, times, rest, hvm, -, -, hsize, -⟩ :=
    hall sampleParsers asciiDigits _ packageData versions (by decide) hrun
  have hget : (twoVersions "1.0.0" "v1.0.0").get "versions" = some (.object [
      ("1.0.0", .object [("dist", .object [("tarball", .string "a")])]),
      ("v1.0.0", .object [("dist", .object [("tarball", .string "b")])])]) := rfl
  rw [hget, Option.some.injEq, Value.object.injEq] at hvm
  rw [hone, ← hvm] at hsize
  cases hsize

/-- Two versions under the keys `1.0.0` and `2.0.0`. -/
theorem keepsVersions_iff_two : ∃ packageData versions,
    (sampleParsers.withSemver asciiDigits).deserializePackumentBlobNormal
      (twoVersions "1.0.0" "2.0.0") = some (packageData, versions) ∧
    KeepsVersions (sampleParsers.withSemver asciiDigits) (twoVersions "1.0.0" "2.0.0") versions := by
  obtain ⟨⟨packageData, versions⟩, hrun⟩ := Option.isSome_iff_exists.mp deserialize_twoVersions.2
  refine ⟨packageData, versions, hrun, (keepsVersions_iff _ _ (by decide) hrun).mpr ?_⟩
  intro vm hvm
  have hget : (twoVersions "1.0.0" "2.0.0").get "versions" = some (.object [
      ("1.0.0", .object [("dist", .object [("tarball", .string "a")])]),
      ("2.0.0", .object [("dist", .object [("tarball", .string "b")])])]) := rfl
  rw [hget, Option.some.injEq, Value.object.injEq] at hvm
  rw [← hvm, ← nodup_map_parseSemver_iff sampleParsers asciiDigits (by decide +kernel)]
  decide +kernel

end Keys

end NpmFollower.DiffLogBuilder
