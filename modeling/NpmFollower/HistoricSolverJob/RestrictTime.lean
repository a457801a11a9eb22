import NpmFollower.HistoricSolverJob.PackumentRequests
import NpmFollower.Library.Folds

/-! # Restricting a packument to a past time

`parse_packument` leaves versions and times that agree, and on these the
restriction is the packument of the entries up to the time. Two restrictions one
after the other are the earlier one.
-/

namespace NpmFollower.HistoricSolverJob

open PostgresDb

/-- At or before `t`, where no `t` is no bound. -/
def Within (t : Option DateTime) (time : DateTime) : Prop := ∀ bound ∈ t, time ≤ bound

instance (t : Option DateTime) (time : DateTime) : Decidable (Within t time) :=
  inferInstanceAs (Decidable (∀ bound ∈ t, time ≤ bound))

/-- The leading entries of a sorted list up to a bound are all entries up to it. -/
theorem takeWhile_eq_filter {l : List (String × DateTime)}
    (h : l.Pairwise fun a b => a.2 ≤ b.2) (bound : DateTime) :
    (l.takeWhile fun e => decide (e.2 ≤ bound)) = l.filter fun e => decide (e.2 ≤ bound) := by
  induction l with
  | nil => rfl
  | cons e l ih =>
    rw [List.pairwise_cons] at h
    by_cases he : e.2 ≤ bound
    · simp [he, ih h.2]
    · have hnone : l.filter (fun e => decide (e.2 ≤ bound)) = [] := by
        rw [List.filter_eq_nil_iff]
        intro e' he'
        rw [decide_eq_true_eq]
        exact fun hle => he ((h.1 e' he').trans hle)
      simp [he, hnone]

namespace ParsedPackument

variable {C : Chrono} {τ : Type} {p : ParsedPackument τ}

def goodTimes (p : ParsedPackument τ) (t : Option DateTime) : List (String × DateTime) :=
  p.sortedTimes.filter fun e => decide (Within t e.2)

/-- What the restriction is for: the entries up to `t`, whose last one gives the tag. -/
def upTo (p : ParsedPackument τ) (t : Option DateTime) : Option (ParsedPackument String) :=
  (p.goodTimes t).getLast?.map fun last =>
    { latestTag := last.1
      versions := (p.goodTimes t).map fun e => (e.1, (p.versions.get e.1).getD .null)
      sortedTimes := p.goodTimes t
      modifiedTime := last.2
      createdTime := p.createdTime }

theorem mem_goodTimes {t : Option DateTime} {e : String × DateTime} :
    e ∈ p.goodTimes t ↔ e ∈ p.sortedTimes ∧ Within t e.2 := by
  simp [goodTimes]

/-- The entries up to an earlier time are among those up to a later one. -/
theorem filter_goodTimes {t t' : Option DateTime} (ht : ∀ time, Within t' time → Within t time) :
    ((p.goodTimes t).filter fun e => decide (Within t' e.2)) = p.goodTimes t' := by
  rw [goodTimes, goodTimes, List.filter_filter]
  apply List.filter_congr
  intro e _
  simp only [← Bool.decide_and, decide_eq_decide]
  exact ⟨fun h => h.1, fun h => ⟨h, ht _ h⟩⟩

theorem goodTimes_sublist (t : Option DateTime) : (p.goodTimes t).Sublist p.sortedTimes :=
  List.filter_sublist

namespace WellFormed

variable (hp : p.WellFormed C)
include hp

theorem get_of_mem {e : String × DateTime} (he : e ∈ p.sortedTimes) :
    ∃ blob, p.versions.get e.1 = some blob :=
  JsonMap.containsKey_iff.mp ((hp.containsKey_iff e.1).mpr (List.mem_map_of_mem he))

theorem within_iff {e : String × DateTime} (he : e ∈ p.sortedTimes) (t : Option DateTime) :
    Within t e.2 ↔ e.2 ≤ C.filterTime t := by
  cases t with
  | none => simp [Within, Chrono.filterTime, hp.le_maxUtc e he]
  | some bound => simp [Within, Chrono.filterTime]

theorem goodTimes_eq_takeWhile (t : Option DateTime) :
    p.goodTimes t = p.sortedTimes.takeWhile fun e => decide (e.2 ≤ C.filterTime t) := by
  rw [takeWhile_eq_filter hp.sorted, goodTimes]
  apply List.filter_congr
  intro e he
  rw [decide_eq_decide]
  exact hp.within_iff he t

theorem nodup_goodTimes (t : Option DateTime) : ((p.goodTimes t).map Prod.fst).Nodup :=
  ((goodTimes_sublist t).map Prod.fst).nodup hp.nodup

end WellFormed

end ParsedPackument

open ParsedPackument

/-- The restriction of a well-formed packument returns, and returns the packument up to `t`. -/
theorem restrictTime_eq {C : Chrono} {p : ParsedPackument Unit} (hp : p.WellFormed C)
    (t : Option DateTime) (packageName : String) :
    C.restrictTime p t packageName = .ok (p.upTo t) := by
  have hgood := hp.goodTimes_eq_takeWhile t
  have hprefix : p.goodTimes t <+: p.sortedTimes := hgood ▸ List.takeWhile_prefix _
  have htake : p.sortedTimes.take (p.goodTimes t).length = p.goodTimes t :=
    (List.prefix_iff_eq_take.mp hprefix).symm
  rw [Chrono.restrictTime, ← hgood]
  simp only [htake]
  rcases List.eq_nil_or_concat (p.goodTimes t) with hnil | ⟨init, last, hlast⟩
  · simp [upTo, hnil]
  · rw [List.concat_eq_append] at hlast
    have hlen : (p.goodTimes t).length - 1 = init.length := by simp [hlast]
    have hindex : p.sortedTimes[(p.goodTimes t).length - 1]? = some last := by
      obtain ⟨rest, hrest⟩ := hprefix
      rw [hlen, ← hrest, hlast]
      simp
    have hversions : ((p.goodTimes t).mapM fun e => do
        return (e.1, ← expect ("version must exist, pkg = " ++ packageName ++ ", v = " ++ e.1)
          (p.versions.get e.1))) =
        Except.ok ((p.goodTimes t).map fun e => (e.1, (p.versions.get e.1).getD .null)) := by
      rw [Folds.mapM_eq_ok_iff, List.forall₂_map_right_iff, List.forall₂_same]
      intro e he
      obtain ⟨blob, hblob⟩ := hp.get_of_mem (mem_goodTimes.mp he).1
      simp [hblob, expect]
    have hbeta : isBeta last.1 = false :=
      hp.noBeta last (mem_goodTimes.mp (hlast ▸ List.mem_append_right _ (List.mem_singleton_self _))).1
    have hfind : ((p.goodTimes t).reverse.find? fun e => !isBeta e.1) = some last := by
      simp [hlast, hbeta]
    have hkeys : (((p.goodTimes t).map fun e =>
        (e.1, (p.versions.get e.1).getD .null)).map Prod.fst).Nodup := by
      rw [List.map_map]
      exact hp.nodup_goodTimes t
    rw [if_neg (by simp [hlast]), hindex, hversions, hfind]
    simp only [expect, Option.map_some]
    have hcollect := JsonMap.foldl_insert_nil hkeys
    have hgetLast : (p.goodTimes t).getLast? = some last := by simp [hlast]
    rw [upTo, hgetLast, Option.map_some]
    simp only [bind, Except.bind, pure, Except.pure, hcollect]

namespace ParsedPackument

theorem upTo_eq_none_iff {τ : Type} {p : ParsedPackument τ} {t : Option DateTime} :
    p.upTo t = none ↔ ∀ e ∈ p.sortedTimes, ¬Within t e.2 := by
  rw [upTo, Option.map_eq_none_iff, List.getLast?_eq_none_iff, goodTimes, List.filter_eq_nil_iff]
  simp

section

variable {C : Chrono} {p : ParsedPackument Unit} {t : Option DateTime}
  {q : ParsedPackument String} (hp : p.WellFormed C) (hq : p.upTo t = some q)
include hq

theorem upTo_eq_some : ∃ last, (p.goodTimes t).getLast? = some last ∧ q =
    { latestTag := last.1
      versions := (p.goodTimes t).map fun e => (e.1, (p.versions.get e.1).getD .null)
      sortedTimes := p.goodTimes t
      modifiedTime := last.2
      createdTime := p.createdTime } := by
  rw [upTo, Option.map_eq_some_iff] at hq
  obtain ⟨last, hlast, rfl⟩ := hq
  exact ⟨last, hlast, rfl⟩

theorem sortedTimes_upTo : q.sortedTimes = p.goodTimes t := by
  obtain ⟨last, -, rfl⟩ := upTo_eq_some hq
  rfl

theorem createdTime_upTo : q.createdTime = p.createdTime := by
  obtain ⟨last, -, rfl⟩ := upTo_eq_some hq
  rfl

include hp

theorem get_upTo (v : String) (blob : Value) : q.versions.get v = some blob ↔
    p.versions.get v = some blob ∧ ∃ time, (v, time) ∈ p.sortedTimes ∧ Within t time := by
  obtain ⟨last, -, rfl⟩ := upTo_eq_some hq
  have hkeys : (((p.goodTimes t).map fun e =>
      (e.1, (p.versions.get e.1).getD .null)).map Prod.fst).Nodup := by
    rw [List.map_map]
    exact hp.nodup_goodTimes t
  rw [JsonMap.get_eq_some_iff hkeys, List.mem_map]
  constructor
  · rintro ⟨e, he, heq⟩
    cases heq
    obtain ⟨hmem, hwithin⟩ := mem_goodTimes.mp he
    obtain ⟨blob, hblob⟩ := hp.get_of_mem hmem
    rw [hblob]
    exact ⟨rfl, e.2, hmem, hwithin⟩
  · rintro ⟨hblob, time, hmem, hwithin⟩
    exact ⟨(v, time), mem_goodTimes.mpr ⟨hmem, hwithin⟩, by rw [hblob]; rfl⟩

theorem wellFormed_upTo : q.forget.WellFormed C := by
  have htimes : q.forget.sortedTimes = p.goodTimes t := sortedTimes_upTo hq
  have hsub := goodTimes_sublist (p := p) t
  refine ⟨?_, ?_, ?_, ?_, ?_⟩
  · rw [htimes]
    exact hp.sorted.sublist hsub
  · rw [htimes]
    exact fun e he => hp.noBeta e (hsub.subset he)
  · rw [htimes]
    exact hp.nodup_goodTimes t
  · intro v
    rw [htimes, JsonMap.containsKey_iff]
    constructor
    · rintro ⟨blob, hblob⟩
      obtain ⟨-, time, hmem, hwithin⟩ := (get_upTo hp hq v blob).mp hblob
      exact List.mem_map_of_mem (mem_goodTimes.mpr ⟨hmem, hwithin⟩)
    · intro hv
      obtain ⟨e, he, rfl⟩ := List.mem_map.mp hv
      obtain ⟨hmem, hwithin⟩ := mem_goodTimes.mp he
      obtain ⟨blob, hblob⟩ := hp.get_of_mem hmem
      exact ⟨blob, (get_upTo hp hq e.1 blob).mpr ⟨hblob, e.2, hmem, hwithin⟩⟩
  · rw [htimes]
    exact fun e he => hp.le_maxUtc e (hsub.subset he)

/-- An earlier restriction of a restriction is the restriction to the earlier time. -/
theorem upTo_forget {t' : Option DateTime} (ht : ∀ time, Within t' time → Within t time) :
    q.forget.upTo t' = p.upTo t' := by
  have hgood : q.forget.goodTimes t' = p.goodTimes t' := by
    have htimes : q.forget.sortedTimes = p.goodTimes t := sortedTimes_upTo hq
    rw [goodTimes, htimes, filter_goodTimes ht]
  have hversions : ((p.goodTimes t').map fun e => (e.1, (q.versions.get e.1).getD .null)) =
      (p.goodTimes t').map fun e => (e.1, (p.versions.get e.1).getD .null) := by
    apply List.map_congr_left
    intro e he
    obtain ⟨hmem, hwithin⟩ := mem_goodTimes.mp he
    obtain ⟨blob, hblob⟩ := hp.get_of_mem hmem
    rw [hblob, (get_upTo hp hq e.1 blob).mpr ⟨hblob, e.2, hmem, ht _ hwithin⟩]
  rw [upTo, upTo, hgood, forget, hversions, createdTime_upTo hq]

end

end ParsedPackument

/-! ## The parse is well-formed -/

/-- The keys of the document, of `versions` and of `time` are distinct, as in every map. -/
structure DistinctKeys (j : JsonMap) : Prop where
  document : (j.map Prod.fst).Nodup
  versions : ∀ m, j.get "versions" = some (.object m) → (m.map Prod.fst).Nodup
  time : ∀ m, j.get "time" = some (.object m) → (m.map Prod.fst).Nodup

theorem le_maxUtc_of_parseTime {C : Chrono} {message : String} {v : Value} {t : DateTime}
    (h : C.parseTime message v = .ok t) : t ≤ C.maxUtc := by
  obtain ⟨x, -, h⟩ := Folds.ok_of_bind h
  rw [Chrono.parseDatetime, expect_eq_ok, Option.or_eq_some_iff] at h
  rcases h with h | ⟨-, h⟩ <;> exact C.le_maxUtc _ _ h

/-- What `parse_times` computes, step by step. -/
theorem parseTimes_eq_ok {C : Chrono} {versions time : JsonMap} {p : ParsedPackument Unit}
    (h : C.parseTimes versions time = .ok p) :
    ∃ modified created times,
      (time.remove "modified").1 = some modified ∧
      ((time.remove "modified").2.remove "created").1 = some created ∧
      C.parseTime "time must be a string" modified = .ok p.modifiedTime ∧
      C.parseTime "time must be a string" created = .ok p.createdTime ∧
      List.Forall₂ (fun e e' => e'.1 = e.1 ∧ C.parseTime "dates must be strings" e.2 = .ok e'.2)
        (((time.remove "modified").2.remove "created").2.filter
          fun e => !isBeta e.1 && versions.containsKey e.1) times ∧
      p.versions = versions.filter (fun e => JsonMap.containsKey
        (((time.remove "modified").2.remove "created").2.filter
          fun e => !isBeta e.1 && versions.containsKey e.1) e.1) ∧
      p.sortedTimes = times.insertionSort fun a b => a.2 ≤ b.2 := by
  obtain ⟨modified, hmodified, h⟩ := Folds.ok_of_bind h
  obtain ⟨modifiedTime, hmodifiedTime, h⟩ := Folds.ok_of_bind h
  obtain ⟨created, hcreated, h⟩ := Folds.ok_of_bind h
  obtain ⟨createdTime, hcreatedTime, h⟩ := Folds.ok_of_bind h
  obtain ⟨times, htimes, h⟩ := Folds.ok_of_bind h
  cases h
  refine ⟨modified, created, times, expect_eq_ok.mp hmodified, expect_eq_ok.mp hcreated,
    hmodifiedTime, hcreatedTime, ?_, rfl, rfl⟩
  apply (Folds.mapM_eq_ok_iff.mp htimes).imp
  intro e e' he
  obtain ⟨t, ht, he⟩ := Folds.ok_of_bind he
  cases he
  exact ⟨rfl, ht⟩

theorem wellFormed_parseTimes {C : Chrono} {versions time : JsonMap} {p : ParsedPackument Unit}
    (htime : (time.map Prod.fst).Nodup) (h : C.parseTimes versions time = .ok p) :
    p.WellFormed C := by
  obtain ⟨modified, created, times, -, -, -, -, hforall, hversions, hsorted⟩ := parseTimes_eq_ok h
  set kept := ((time.remove "modified").2.remove "created").2.filter
    fun e => !isBeta e.1 && versions.containsKey e.1 with hkept
  have hkeys : (kept.map Prod.fst).Nodup :=
    (List.filter_sublist.map Prod.fst).nodup
      (JsonMap.nodup_remove (JsonMap.nodup_remove htime "modified") "created")
  have hfst : kept.map Prod.fst = times.map Prod.fst :=
    Folds.map_eq_map_of_forall₂ hforall fun e e' he => he.1.symm
  have hperm : p.sortedTimes.Perm times := hsorted ▸ List.perm_insertionSort _ _
  have hmem : ∀ e' ∈ p.sortedTimes, ∃ e ∈ kept, e'.1 = e.1 ∧
      C.parseTime "dates must be strings" e.2 = .ok e'.2 :=
    fun e' he' => Folds.exists_of_mem_right hforall (hperm.mem_iff.mp he')
  refine ⟨?_, ?_, ?_, ?_, ?_⟩
  · rw [hsorted]
    exact List.pairwise_insertionSort _ _
  · intro e' he'
    obtain ⟨e, he, hfst', -⟩ := hmem e' he'
    rw [hkept, List.mem_filter] at he
    rw [hfst']
    simpa using (Bool.and_eq_true_iff.mp he.2).1
  · rw [(hperm.map Prod.fst).nodup_iff, ← hfst]
    exact hkeys
  · intro v
    rw [(hperm.map Prod.fst).mem_iff, ← hfst, hversions, JsonMap.containsKey_iff_mem]
    constructor
    · intro hv
      obtain ⟨e, he, rfl⟩ := List.mem_map.mp hv
      exact JsonMap.containsKey_iff_mem.mp (List.mem_filter.mp he).2
    · intro hv
      obtain ⟨e, he, rfl⟩ := List.mem_map.mp hv
      rw [hkept, List.mem_filter, Bool.and_eq_true] at he
      obtain ⟨e', he', heq⟩ := List.mem_map.mp (JsonMap.containsKey_iff_mem.mp he.2.2)
      exact List.mem_map.mpr ⟨e', List.mem_filter.mpr
        ⟨he', JsonMap.containsKey_iff_mem.mpr (heq ▸ hv)⟩, heq⟩
  · intro e' he'
    obtain ⟨e, -, -, ht⟩ := hmem e' he'
    exact le_maxUtc_of_parseTime ht

theorem parsePackument_eq_ok {C : Chrono} {j : JsonMap} {packageName : String}
    {p : ParsedPackument Unit} (hj : DistinctKeys j)
    (h : C.parsePackument j packageName = .ok (some p)) :
    ∃ versions time, j.get "versions" = some (.object versions) ∧
      j.get "time" = some (.object time) ∧
      C.parseTimes (versions.map fun e => (e.1, cleanVersionBlob e.2)) time = .ok p := by
  rw [Chrono.parsePackument] at h
  have hfst := JsonMap.remove_fst j "versions"
  have htime := JsonMap.get_remove_of_ne hj.document (show "time" ≠ "versions" by decide)
  rcases hremove : j.remove "versions" with ⟨_ | v, rest⟩
  · rw [hremove] at h
    cases h
  · rw [hremove] at h hfst htime
    obtain ⟨t, ht, h⟩ := Folds.ok_of_bind h
    obtain ⟨versions, hversions, h⟩ := Folds.ok_of_bind h
    obtain ⟨time, htimeObj, h⟩ := Folds.ok_of_bind h
    obtain ⟨p', hp', h⟩ := Folds.ok_of_bind h
    cases h
    rw [expect_eq_ok, JsonMap.remove_fst] at ht
    rw [expect_eq_ok] at hversions htimeObj
    have hobj : ∀ {v : Value} {m : JsonMap}, v.asObject = some m → v = .object m := by
      intro v m hv
      cases v <;> cases hv
      rfl
    exact ⟨versions, time, by rw [← hfst, hobj hversions], by rw [← htime, ht, hobj htimeObj], hp'⟩

theorem wellFormed_of_parsePackument {C : Chrono} {j : JsonMap} {packageName : String}
    {p : ParsedPackument Unit} (hj : DistinctKeys j)
    (h : C.parsePackument j packageName = .ok (some p)) : p.WellFormed C := by
  obtain ⟨versions, time, -, htime, hparse⟩ := parsePackument_eq_ok hj h
  exact wellFormed_parseTimes (hj.time time htime) hparse

/-- The restriction never panics, gives the versions up to the time with the last
of them as tag, and depends on the earlier of two times only. -/
theorem restrictTime_of_parsePackument {C : Chrono} {j : JsonMap} {packageName : String}
    {p : ParsedPackument Unit} (hj : DistinctKeys j)
    (h : C.parsePackument j packageName = .ok (some p)) (name : String) :
    (∀ t : Option DateTime, ∃ r, C.restrictTime p t name = .ok r ∧
      (r = none ↔ ¬∃ v time, p.versions.containsKey v = true ∧ (v, time) ∈ p.sortedTimes ∧
        Within t time) ∧
      ∀ q, r = some q →
        (∀ v blob, q.versions.get v = some blob ↔
          p.versions.get v = some blob ∧ ∃ time, (v, time) ∈ p.sortedTimes ∧ Within t time) ∧
        (p.sortedTimes.filter fun e => decide (Within t e.2)).getLast? =
          some (q.latestTag, q.modifiedTime)) ∧
    ∀ t₁ t₂ : Option DateTime, (∀ time, Within t₁ time → Within t₂ time) →
      ((C.restrictTime p t₂ name).bind fun
        | none => .ok none
        | some q => C.restrictTime q.forget t₁ name) = C.restrictTime p t₁ name := by
  have hp := wellFormed_of_parsePackument hj h
  constructor
  · intro t
    refine ⟨p.upTo t, restrictTime_eq hp t name, ?_, ?_⟩
    · rw [upTo_eq_none_iff]
      constructor
      · rintro hnone ⟨v, time, -, hmem, hwithin⟩
        exact hnone _ hmem hwithin
      · intro hnone e he hwithin
        exact hnone ⟨e.1, e.2, (hp.containsKey_iff e.1).mpr (List.mem_map_of_mem he), he, hwithin⟩
    · intro q hq
      obtain ⟨last, hlast, rfl⟩ := upTo_eq_some hq
      exact ⟨get_upTo hp hq, hlast⟩
  · intro t₁ t₂ ht
    rw [restrictTime_eq hp t₂, restrictTime_eq hp t₁]
    cases hq : p.upTo t₂ with
    | none =>
      have hnone : p.upTo t₁ = none :=
        upTo_eq_none_iff.mpr fun e he hwithin => upTo_eq_none_iff.mp hq e he (ht _ hwithin)
      rw [hnone]
      rfl
    | some q =>
      change C.restrictTime q.forget t₁ name = _
      rw [restrictTime_eq (wellFormed_upTo hp hq) t₁ name, upTo_forget hp hq ht]

/-- Two texts of times, in milliseconds. -/
def newYears : Chrono where
  parseFromRfc3339 x :=
    if x = "2015-01-01T00:00:00.000Z" then some 1420070400000
    else if x = "2016-01-01T00:00:00.000Z" then some 1451606400000
    else none
  maxUtc := 8210266876799999
  le_maxUtc := by
    intro x t h
    split_ifs at h <;> cases h <;> decide

def twoReleases : JsonMap :=
  [("versions", .object [("1.0.0", .object []), ("1.1.0-beta", .object []), ("1.1.0", .object [])]),
    ("time", .object [("created", .string "2015-01-01T00:00:00.000Z"),
      ("1.1.0", .string "2016-01-01T00:00:00.000Z"), ("1.0.0", .string "2015-01-01T00:00:00.000Z"),
      ("modified", .string "2016-01-01T00:00:00.000Z")])]

def twoReleasesParsed : ParsedPackument Unit where
  latestTag := ()
  versions := [("1.0.0", .object []), ("1.1.0", .object [])]
  sortedTimes := [("1.0.0", 1420070400000), ("1.1.0", 1451606400000)]
  modifiedTime := 1451606400000
  createdTime := 1420070400000

theorem distinctKeys_twoReleases : DistinctKeys twoReleases := by
  refine ⟨by decide, ?_, ?_⟩ <;>
  · intro m hm
    cases hm
    decide

theorem parsePackument_twoReleases :
    newYears.parsePackument twoReleases "a" = .ok (some twoReleasesParsed) := rfl

theorem restrictTime_twoReleases :
    DistinctKeys twoReleases ∧
      newYears.parsePackument twoReleases "a" = .ok (some twoReleasesParsed) ∧
      (∃ r, newYears.restrictTime twoReleasesParsed (some 1430000000000) "a" = .ok r) ∧
      ∀ t₁ t₂ : Option DateTime, (∀ time, Within t₁ time → Within t₂ time) →
        ((newYears.restrictTime twoReleasesParsed t₂ "a").bind fun
          | none => .ok none
          | some q => newYears.restrictTime q.forget t₁ "a") =
          newYears.restrictTime twoReleasesParsed t₁ "a" := by
  have h := restrictTime_of_parsePackument distinctKeys_twoReleases parsePackument_twoReleases "a"
  obtain ⟨r, hr, -⟩ := h.1 (some 1430000000000)
  exact ⟨distinctKeys_twoReleases, parsePackument_twoReleases, ⟨r, hr⟩, h.2⟩

end NpmFollower.HistoricSolverJob
