import NpmFollower.HistoricSolverJob.RestrictTime

/-! # The past that the historic registry serves

The registry restricts a packument, prints it in the format of npm, and the
solver parses and restricts it again. Taking `modified` and `created` out of the
printed times moves the last two versions to the front, so versions of the same
instant can come back in another order.
-/

namespace NpmFollower.HistoricSolverJob

open PostgresDb

/-! ## Moving the last two entries to the front -/

/-- The two entries before the end that change places when they are moved to the front are
not at the same time as their neighbours, as far as both are in the past. -/
def NoTie (t : Option DateTime) : List (String × DateTime) → Prop
  | last :: before :: rest =>
    (Within t last.2 → before.2 < last.2) ∧
      ∀ e ∈ rest.head?, Within t before.2 → e.2 < before.2
  | _ => True

def lastTwoFirst {α : Type} (l : List α) : List α :=
  match l.reverse with
  | last :: before :: rest => last :: before :: rest.reverse
  | _ => l

theorem lastTwoFirst_perm {α : Type} (l : List α) : (lastTwoFirst l).Perm l := by
  rcases List.eq_nil_or_concat l with rfl | ⟨l', last, rfl⟩
  · exact List.Perm.refl _
  rcases List.eq_nil_or_concat l' with rfl | ⟨rest, before, rfl⟩
  · exact List.Perm.refl _
  · have hmoved : lastTwoFirst ((rest.concat before).concat last) =
        [last, before] ++ rest := by simp [lastTwoFirst]
    rw [hmoved, List.concat_eq_append, List.concat_eq_append, List.append_assoc]
    exact List.perm_append_comm.trans ((List.Perm.swap before last []).append_left rest)

theorem lastTwoFirst_map {α β : Type} (f : α → β) (l : List α) :
    lastTwoFirst (l.map f) = (lastTwoFirst l).map f := by
  rw [lastTwoFirst, ← List.map_reverse, lastTwoFirst]
  rcases l.reverse with _ | ⟨last, _ | ⟨before, rest⟩⟩ <;> simp

abbrev byTime (a b : String × DateTime) : Prop := a.2 ≤ b.2

theorem within_of_le {t : Option DateTime} {a b : DateTime} (hab : a ≤ b) (h : Within t b) :
    Within t a := fun bound hbound => hab.trans (h bound hbound)

theorem orderedInsert_of_forall_lt {e : String × DateTime} {l : List (String × DateTime)}
    (h : ∀ x ∈ l, x.2 < e.2) : l.orderedInsert byTime e = l ++ [e] := by
  induction l with
  | nil => rfl
  | cons x l ih =>
    rw [List.forall_mem_cons] at h
    rw [List.orderedInsert_cons, if_neg (not_le.mpr h.1), ih h.2]
    rfl

theorem filter_orderedInsert_of_neg {p : String × DateTime → Bool} {e : String × DateTime}
    (he : p e = false) (l : List (String × DateTime)) :
    (l.orderedInsert byTime e).filter p = l.filter p := by
  induction l with
  | nil => simp [he]
  | cons x l ih =>
    rw [List.orderedInsert_cons]
    split_ifs
    · simp [he]
    · rw [List.filter_cons, List.filter_cons, ih]

theorem not_pair_sublist {α : Type} {a b : α} {l : List α} (hl : l.Nodup)
    (h : [a, b].Sublist l) : ¬[b, a].Sublist l := by
  intro h'
  induction l with
  | nil => cases h
  | cons x l ih =>
    rw [List.nodup_cons] at hl
    rcases List.sublist_cons_iff.mp h with hab | ⟨r, hr, hab⟩
    · rcases List.sublist_cons_iff.mp h' with hba | ⟨r', hr', hba⟩
      · exact ih hl.2 hab hba
      · cases hr'
        exact hl.1 (hab.subset (by simp))
    · cases hr
      rcases List.sublist_cons_iff.mp h' with hba | ⟨r', hr', hba⟩
      · exact hl.1 (hba.subset (by simp))
      · cases hr'
        exact hl.1 (hba.subset (by simp))

/-- A pair that the stable sort leaves in the order of the front stays in that order
among the entries of the past. -/
theorem pair_sublist_of_filter_eq {p : String × DateTime → Bool} {a b : String × DateTime}
    {l l' : List (String × DateTime)} (hle : a.2 ≤ b.2) (h : [a, b].Sublist l)
    (ha : p a = true) (hb : p b = true)
    (heq : (l.insertionSort byTime).filter p = l'.filter p) : [a, b].Sublist l' := by
  have hsort : [a, b].Sublist (l.insertionSort byTime) := List.pair_sublist_insertionSort hle h
  have hfilter := hsort.filter p
  rw [heq] at hfilter
  simp only [List.filter_cons, ha, hb, List.filter_nil, if_true] at hfilter
  exact hfilter.trans List.filter_sublist

theorem insertionSort_lastTwoFirst {rest : List (String × DateTime)}
    {before last : String × DateTime} (hrest : rest.Pairwise byTime) :
    (lastTwoFirst (rest ++ [before] ++ [last])).insertionSort byTime =
      (rest.orderedInsert byTime before).orderedInsert byTime last := by
  have hmoved : lastTwoFirst (rest ++ [before] ++ [last]) = last :: before :: rest := by
    simp [lastTwoFirst]
  rw [hmoved, List.insertionSort_cons, List.insertionSort_cons, hrest.insertionSort_eq]

theorem filter_insertionSort_eq_iff {t : Option DateTime} {l : List (String × DateTime)}
    (hsorted : l.Pairwise byTime) (hnodup : l.Nodup) :
    ((lastTwoFirst l).insertionSort byTime).filter (fun e => decide (Within t e.2)) =
        l.filter (fun e => decide (Within t e.2)) ↔ NoTie t l.reverse := by
  rcases List.eq_nil_or_concat l with rfl | ⟨l', last, rfl⟩
  · simp [lastTwoFirst, NoTie]
  rw [List.concat_eq_append] at *
  rcases List.eq_nil_or_concat l' with rfl | ⟨rest, before, rfl⟩
  · simp [lastTwoFirst, NoTie]
  rw [List.concat_eq_append] at *
  have hrest : rest.Pairwise byTime ∧ (∀ e ∈ rest, e.2 ≤ before.2) ∧ before.2 ≤ last.2 := by
    simp only [List.append_assoc, List.pairwise_append] at hsorted
    exact ⟨hsorted.1, fun e he => hsorted.2.2 e he before (by simp), by
      simpa [byTime] using hsorted.2.1⟩
  obtain ⟨hrest, hbefore, hlast⟩ := hrest
  have hreverse : (rest ++ [before] ++ [last]).reverse = last :: before :: rest.reverse := by simp
  rw [hreverse, NoTie, List.head?_reverse]
  constructor
  · intro heq
    constructor
    · intro hwithin
      by_contra hle
      rw [not_lt] at hle
      have hpair : [last, before].Sublist (rest ++ [before] ++ [last]) := by
        apply pair_sublist_of_filter_eq hle _ _ _ heq
        · simp [lastTwoFirst]
        · simpa using hwithin
        · simpa using within_of_le hlast hwithin
      exact not_pair_sublist hnodup hpair (by simp)
    · intro e he hwithin
      by_contra hle
      rw [not_lt] at hle
      obtain ⟨init, rfl⟩ := List.getLast?_eq_some_iff.mp he
      have hpair : [before, e].Sublist (init ++ [e] ++ [before] ++ [last]) := by
        apply pair_sublist_of_filter_eq hle _ _ _ heq
        · simp [lastTwoFirst]
        · simpa using hwithin
        · simpa using within_of_le (hbefore e (by simp)) hwithin
      exact not_pair_sublist hnodup hpair (by simp)
  · rintro ⟨htie, htie'⟩
    rw [insertionSort_lastTwoFirst hrest]
    by_cases hb : Within t before.2
    · have hlt : ∀ e ∈ rest, e.2 < before.2 := by
        intro e he
        rcases List.eq_nil_or_concat rest with rfl | ⟨init, c, rfl⟩
        · cases he
        · rw [List.concat_eq_append] at *
          have hc : c.2 < before.2 := htie' c (by simp) hb
          rcases List.mem_append.mp he with he | he
          · exact lt_of_le_of_lt ((List.pairwise_append.mp hrest).2.2 e he c (by simp)) hc
          · rw [List.mem_singleton.mp he]
            exact hc
      rw [orderedInsert_of_forall_lt hlt]
      by_cases ha : Within t last.2
      · rw [orderedInsert_of_forall_lt]
        intro e he
        rcases List.mem_append.mp he with he | he
        · exact (hlt e he).trans (htie ha)
        · rw [List.mem_singleton.mp he]
          exact htie ha
      · rw [filter_orderedInsert_of_neg (by simpa using ha)]
        simp [List.filter_cons, ha]
    · have ha : ¬Within t last.2 := fun ha => hb (within_of_le hlast ha)
      rw [filter_orderedInsert_of_neg (by simpa using ha),
        filter_orderedInsert_of_neg (by simpa using hb)]
      simp [ha, hb]

/-! ## The registry -/

/-- chrono with its printer of milliseconds. -/
structure PrintingChrono extends Chrono where
  toRfc3339Millis : DateTime → String

namespace PrintingChrono

variable (C : PrintingChrono)

def serializeDatetime (dt : DateTime) : Value := .string (C.toRfc3339Millis dt)

def timeDict (packument : ParsedPackument String) : JsonMap :=
  (("modified", C.serializeDatetime packument.modifiedTime) ::
    ("created", C.serializeDatetime packument.createdTime) ::
    packument.sortedTimes.map fun e => (e.1, C.serializeDatetime e.2)).foldl
      (fun m e => JsonMap.insert m e.1 e.2) []

def serializePackumentInNpmFormat (packageName : String) : Option (ParsedPackument String) → Value
  | none => .object [("error", .string "Not found")]
  | some packument =>
    .object [("_id", .string packageName), ("name", .string packageName),
      ("dist-tags", .object [("latest", .string packument.latestTag)]),
      ("versions", .object packument.versions), ("time", .object (C.timeDict packument))]

/-- The solver parses what it gets and restricts it to `t`. -/
def readServed (packageName : String) (t : Option DateTime) :
    Value → Except String (Option (ParsedPackument String))
  | .object j => do
    match ← C.parsePackument j packageName with
    | some p => C.restrictTime p t packageName
    | none => return none
  | _ => .error "non-object packument"

/-- What the solver sees of the past `t₁` when the registry restricts to `t₂` and prints. -/
def pastSeen (p : ParsedPackument Unit) (packageName : String) (t₁ t₂ : Option DateTime) :
    Except String (Option (ParsedPackument String)) := do
  let served ← C.restrictTime p t₂ packageName
  C.readServed packageName t₁ (C.serializePackumentInNpmFormat packageName served)

theorem pastSeen_of_ok {p : ParsedPackument Unit} {packageName : String} {t₁ t₂ : Option DateTime}
    {served : Option (ParsedPackument String)}
    (h : C.restrictTime p t₂ packageName = .ok served) :
    C.pastSeen p packageName t₁ t₂ =
      C.readServed packageName t₁ (C.serializePackumentInNpmFormat packageName served) := by
  rw [pastSeen, h]
  rfl

/-- The time is printed without loss, as every time of millisecond precision. -/
def Reprints (dt : DateTime) : Prop := C.parseFromRfc3339 (C.toRfc3339Millis dt) = some dt

theorem parseTime_serializeDatetime {dt : DateTime} (h : C.Reprints dt) (message : String) :
    C.parseTime message (C.serializeDatetime dt) = .ok dt := by
  rw [Reprints] at h
  simp [Chrono.parseTime, serializeDatetime, Value.asString, expect, Chrono.parseDatetime, h, bind,
    Except.bind]

end PrintingChrono

theorem remove_head (key : String) (v : Value) (init : JsonMap) (last : String × Value) :
    JsonMap.remove ((key, v) :: init ++ [last]) key = (some v, last :: init) := by
  have hlast : ((key, v) :: init ++ [last]).getLast? = some last := List.getLast?_concat
  have hfind : ((key, v) :: init ++ [last]).findIdx? (fun e => e.1 == key) = some 0 := by
    simp [List.findIdx?_cons]
  rw [JsonMap.remove, hlast, hfind]
  simp only [JsonMap.get_cons, List.cons_append, if_true, List.set_cons_zero]
  rw [← List.cons_append, List.dropLast_concat]

theorem remove_second {key : String} {e : String × Value} (he : e.1 ≠ key) (v : Value)
    (init : JsonMap) (last : String × Value) :
    JsonMap.remove (e :: (key, v) :: init ++ [last]) key = (some v, e :: last :: init) := by
  have hlast : (e :: (key, v) :: init ++ [last]).getLast? = some last := List.getLast?_concat
  have hfind : (e :: (key, v) :: init ++ [last]).findIdx? (fun e => e.1 == key) = some 1 := by
    simp [List.findIdx?_cons, he]
  rw [JsonMap.remove, hlast, hfind]
  simp only [JsonMap.get_cons, List.cons_append, if_neg (Ne.symm he), if_true, List.set_cons_succ,
    List.set_cons_zero]
  rw [← List.cons_append, ← List.cons_append, List.dropLast_concat]

theorem remove_last_of_two {key : String} {e : String × Value} (he : e.1 ≠ key) (v : Value) :
    JsonMap.remove [e, (key, v)] key = (some v, [e]) := by
  have hfind : [e, (key, v)].findIdx? (fun e => e.1 == key) = some 1 := by
    simp [List.findIdx?_cons, he]
  rw [JsonMap.remove, hfind]
  simp [JsonMap.get_cons, Ne.symm he]

/-- The two keys are taken out from the front, each for the last entry. -/
theorem remove_modified_created {l : JsonMap} (hl : l ≠ []) (hkeys : ∀ e ∈ l, e.1 ≠ "created")
    (modified created : Value) :
    ∃ rest, JsonMap.remove (("modified", modified) :: ("created", created) :: l) "modified" =
        (some modified, rest) ∧
      rest.remove "created" = (some created, lastTwoFirst l) := by
  rcases List.eq_nil_or_concat l with hnil | ⟨init, last, hconcat⟩
  · exact absurd hnil hl
  rw [List.concat_eq_append] at hconcat
  subst hconcat
  have hlast : last.1 ≠ "created" := hkeys last (by simp)
  refine ⟨last :: ("created", created) :: init, ?_, ?_⟩
  · rw [← List.cons_append, ← List.cons_append, List.cons_append]
    exact remove_head _ _ _ _
  · rcases List.eq_nil_or_concat init with rfl | ⟨init, before, rfl⟩
    · rw [remove_last_of_two hlast]
      simp [lastTwoFirst]
    · rw [List.concat_eq_append, ← List.cons_append, ← List.cons_append, remove_second hlast]
      simp [lastTwoFirst]

/-! ## Parsing what the registry printed -/

theorem cleanDist_cleanDist (v : Value) : cleanDist (cleanDist v) = cleanDist v := by
  cases v with
  | object dist =>
    cases h : JsonMap.get dist "tarball" with
    | none => simp [cleanDist, h]
    | some tarball => simp [cleanDist, h, JsonMap.get_cons]
  | _ => rfl

theorem cleanVersionBlob_cleanVersionBlob (v : Value) :
    cleanVersionBlob (cleanVersionBlob v) = cleanVersionBlob v := by
  cases v with
  | object m =>
    rw [cleanVersionBlob, cleanVersionBlob]
    set f := fun e : String × Value => if e.1 = "dist" then (e.1, cleanDist e.2) else e with hf
    have hidem : ∀ e, f (f e) = f e := by
      intro e
      by_cases he : e.1 = "dist" <;> simp [hf, he, cleanDist_cleanDist]
    have hmap : ((m.map f).filter fun e => keptKeys.contains e.1).map f =
        (m.map f).filter fun e => keptKeys.contains e.1 := by
      refine (List.map_congr_left fun e he => ?_).trans (List.map_id _)
      obtain ⟨e', -, rfl⟩ := List.mem_map.mp (List.mem_filter.mp he).1
      exact hidem e'
    rw [hmap, List.filter_filter]
    simp
  | _ => rfl

variable {C : PrintingChrono} {q : ParsedPackument String}

/-- A served packument: it has an entry, and none of the two keys beside the versions. -/
structure Served (C : PrintingChrono) (q : ParsedPackument String) : Prop where
  wellFormed : q.forget.WellFormed C.toChrono
  nonempty : q.sortedTimes ≠ []
  notReserved : ∀ e ∈ q.sortedTimes, e.1 ≠ "modified" ∧ e.1 ≠ "created"
  reprints : ∀ e ∈ q.sortedTimes, C.Reprints e.2
  reprintsCreated : C.Reprints q.createdTime
  reprintsModified : C.Reprints q.modifiedTime

theorem nodup_printed (hq : Served C q) (modified created : Value) :
    ((("modified", modified) :: ("created", created) ::
      q.sortedTimes.map fun e => (e.1, C.serializeDatetime e.2)).map Prod.fst).Nodup := by
  have hmap : (q.sortedTimes.map fun e => (e.1, C.serializeDatetime e.2)).map Prod.fst =
      q.sortedTimes.map Prod.fst := by
    rw [List.map_map]
    rfl
  rw [List.map_cons, List.map_cons, hmap, List.nodup_cons, List.nodup_cons]
  refine ⟨?_, ?_, hq.wellFormed.nodup⟩
  · simp only [List.mem_cons, List.mem_map, not_or, not_exists, not_and]
    exact ⟨by decide, fun e he => (hq.notReserved e he).1⟩
  · simp only [List.mem_map, not_exists, not_and]
    exact fun e he => (hq.notReserved e he).2

theorem timeDict_eq (hq : Served C q) : C.timeDict q =
    ("modified", C.serializeDatetime q.modifiedTime) ::
      ("created", C.serializeDatetime q.createdTime) ::
      q.sortedTimes.map fun e => (e.1, C.serializeDatetime e.2) :=
  JsonMap.foldl_insert_nil (nodup_printed hq _ _)

theorem parseTimes_timeDict (hq : Served C q) :
    ∃ p, C.parseTimes (q.versions.map fun e => (e.1, cleanVersionBlob e.2)) (C.timeDict q) =
        .ok p ∧
      p.sortedTimes = (lastTwoFirst q.sortedTimes).insertionSort byTime ∧
      ∀ v ∈ q.sortedTimes.map Prod.fst,
        p.versions.get v = (q.versions.get v).map cleanVersionBlob := by
  set printed := q.sortedTimes.map fun e => (e.1, C.serializeDatetime e.2) with hprinted
  obtain ⟨rest, hmodified, hcreated⟩ := remove_modified_created (l := printed)
    (by simpa [hprinted] using hq.nonempty)
    (by
      intro e he
      obtain ⟨e', he', rfl⟩ := List.mem_map.mp he
      exact (hq.notReserved e' he').2)
    (C.serializeDatetime q.modifiedTime) (C.serializeDatetime q.createdTime)
  rw [timeDict_eq hq, ← hprinted, Chrono.parseTimes, hmodified]
  have hmem : ∀ e ∈ lastTwoFirst printed, ∃ e' ∈ q.sortedTimes, e'.1 = e.1 := by
    intro e he
    obtain ⟨e', he', rfl⟩ := List.mem_map.mp ((lastTwoFirst_perm printed).mem_iff.mp he)
    exact ⟨e', he', rfl⟩
  have hkeys : (q.versions.map fun e => (e.1, cleanVersionBlob e.2)).map Prod.fst =
      q.versions.map Prod.fst := by
    rw [List.map_map]
    rfl
  have hkept : ((lastTwoFirst printed).filter fun e => !isBeta e.1 && JsonMap.containsKey
      (q.versions.map fun e => (e.1, cleanVersionBlob e.2)) e.1) = lastTwoFirst printed := by
    rw [List.filter_eq_self]
    intro e he
    obtain ⟨e', he', heq⟩ := hmem e he
    rw [← heq, hq.wellFormed.noBeta e' he', Bool.not_false, Bool.true_and,
      JsonMap.containsKey_iff_mem, hkeys, ← JsonMap.containsKey_iff_mem]
    exact (hq.wellFormed.containsKey_iff e'.1).mpr (List.mem_map_of_mem he')
  have htimes : ((lastTwoFirst printed).mapM fun e => do
      return (e.1, ← C.parseTime "dates must be strings" e.2)) =
      Except.ok (lastTwoFirst q.sortedTimes) := by
    rw [hprinted, lastTwoFirst_map, Folds.mapM_eq_ok_iff, List.forall₂_map_left_iff,
      List.forall₂_same]
    intro e he
    rw [C.parseTime_serializeDatetime (hq.reprints e ((lastTwoFirst_perm _).mem_iff.mp he))]
    rfl
  simp only [hcreated, hkept]
  rw [htimes]
  simp only [expect, bind, Except.bind, pure, Except.pure,
    C.parseTime_serializeDatetime hq.reprintsModified, C.parseTime_serializeDatetime hq.reprintsCreated]
  refine ⟨_, rfl, rfl, ?_⟩
  intro v hv
  have hcontains : JsonMap.containsKey (lastTwoFirst printed) v = true := by
    rw [JsonMap.containsKey_iff_mem, ((lastTwoFirst_perm printed).map Prod.fst).mem_iff, hprinted,
      List.map_map]
    exact hv
  exact (JsonMap.get_filter_fst _ hcontains).trans (JsonMap.get_map_snd _ _ _)

theorem parsePackument_serialize (hq : Served C q) (packageName : String) :
    ∃ j p, C.serializePackumentInNpmFormat packageName (some q) = .object j ∧
      C.parsePackument j packageName = .ok (some p) ∧ p.WellFormed C.toChrono ∧
      p.sortedTimes = (lastTwoFirst q.sortedTimes).insertionSort byTime ∧
      ∀ v ∈ q.sortedTimes.map Prod.fst,
        p.versions.get v = (q.versions.get v).map cleanVersionBlob := by
  obtain ⟨p, hp, htimes, hversions⟩ := parseTimes_timeDict hq
  refine ⟨_, p, rfl, ?_, ?_, htimes, hversions⟩
  · have hparse : C.parsePackument [("_id", .string packageName), ("name", .string packageName),
        ("dist-tags", .object [("latest", .string q.latestTag)]),
        ("versions", .object q.versions), ("time", .object (C.timeDict q))] packageName =
        (C.parseTimes (q.versions.map fun e => (e.1, cleanVersionBlob e.2)) (C.timeDict q)).bind
          fun p => .ok (some p) := rfl
    rw [hparse, hp]
    rfl
  · apply wellFormed_parseTimes _ hp
    rw [timeDict_eq hq]
    exact nodup_printed hq _ _

/-! ## The same past -/

/-- Two restrictions agree on the versions, the times and the latest tag. -/
def SamePast : Except String (Option (ParsedPackument String)) →
    Except String (Option (ParsedPackument String)) → Prop
  | .ok none, .ok none => True
  | .ok (some q), .ok (some q') => q.latestTag = q'.latestTag ∧ q.sortedTimes = q'.sortedTimes ∧
    ∀ v, q.versions.get v = q'.versions.get v
  | _, _ => False

theorem samePast_iff {p p' : ParsedPackument Unit} {t : Option DateTime}
    (hget : ∀ e ∈ p.goodTimes t, p'.versions.get e.1 = p.versions.get e.1) :
    SamePast (.ok (p'.upTo t)) (.ok (p.upTo t)) ↔ p'.goodTimes t = p.goodTimes t := by
  constructor
  · intro h
    cases hq' : p'.upTo t with
    | none =>
      cases hq : p.upTo t with
      | none =>
        rw [ParsedPackument.upTo, Option.map_eq_none_iff, List.getLast?_eq_none_iff] at hq hq'
        rw [hq, hq']
      | some q =>
        rw [hq, hq'] at h
        cases h
    | some q' =>
      cases hq : p.upTo t with
      | none =>
        rw [hq, hq'] at h
        cases h
      | some q =>
        rw [hq, hq'] at h
        rw [← ParsedPackument.sortedTimes_upTo hq, ← ParsedPackument.sortedTimes_upTo hq']
        exact h.2.1
  · intro heq
    have hversions : (p'.goodTimes t).map (fun e => (e.1, (p'.versions.get e.1).getD .null)) =
        (p.goodTimes t).map fun e => (e.1, (p.versions.get e.1).getD .null) := by
      rw [heq]
      apply List.map_congr_left
      intro e he
      rw [hget e he]
    rw [ParsedPackument.upTo, ParsedPackument.upTo, hversions, heq]
    cases (p.goodTimes t).getLast? with
    | none => trivial
    | some last => exact ⟨rfl, rfl, fun v => rfl⟩

section

variable {j : JsonMap} {packageName : String} {p : ParsedPackument Unit} (hj : DistinctKeys j)
  (h : C.parsePackument j packageName = .ok (some p))
include hj h

theorem notReserved_of_parsePackument (e : String × DateTime) (he : e ∈ p.sortedTimes) :
    e.1 ≠ "modified" ∧ e.1 ≠ "created" := by
  obtain ⟨versions, time, -, htime, hparse⟩ := parsePackument_eq_ok hj h
  obtain ⟨modified, created, times, -, -, -, -, hforall, -, hsorted⟩ := parseTimes_eq_ok hparse
  have hnodup := hj.time time htime
  have hmem : e ∈ times := (List.perm_insertionSort _ _).mem_iff.mp (hsorted ▸ he)
  obtain ⟨e', he', heq, -⟩ := Folds.exists_of_mem_right hforall hmem
  have hcontains := JsonMap.containsKey_iff_mem.mpr (List.mem_map_of_mem (f := Prod.fst)
    (List.mem_filter.mp he').1)
  rw [JsonMap.containsKey, ← heq] at hcontains
  constructor
  · intro hkey
    rw [hkey, JsonMap.get_remove_of_ne (JsonMap.nodup_remove hnodup _) (by decide),
      JsonMap.get_remove_self hnodup] at hcontains
    cases hcontains
  · intro hkey
    rw [hkey, JsonMap.get_remove_self (JsonMap.nodup_remove hnodup _)] at hcontains
    cases hcontains

theorem clean_of_parsePackument {v : String} {blob : Value} (hblob : p.versions.get v = some blob) :
    cleanVersionBlob blob = blob := by
  obtain ⟨versions, time, -, -, hparse⟩ := parsePackument_eq_ok hj h
  obtain ⟨-, -, -, -, -, -, -, -, hversions, -⟩ := parseTimes_eq_ok hparse
  have hmem := JsonMap.mem_of_get hblob
  rw [hversions] at hmem
  obtain ⟨e, -, heq⟩ := List.mem_map.mp (List.mem_filter.mp hmem).1
  cases heq
  exact cleanVersionBlob_cleanVersionBlob e.2

/-- The solver sees the past that the registry restricts to, but for versions published
at the same instant at the end of what the registry serves. -/
theorem samePast_pastSeen_iff (htimes : ∀ e ∈ p.sortedTimes, C.Reprints e.2)
    (hcreated : C.Reprints p.createdTime) {t₁ t₂ : Option DateTime}
    (ht : ∀ time, Within t₁ time → Within t₂ time) :
    SamePast (C.pastSeen p packageName t₁ t₂) (C.restrictTime p t₁ packageName) ↔
      NoTie t₁ (p.sortedTimes.filter fun e => decide (Within t₂ e.2)).reverse := by
  have hp := wellFormed_of_parsePackument hj h
  have hgood := ParsedPackument.filter_goodTimes (p := p) ht
  rw [C.pastSeen_of_ok (restrictTime_eq hp t₂ packageName), restrictTime_eq hp t₁]
  cases hq : p.upTo t₂ with
  | none =>
    rw [ParsedPackument.upTo, Option.map_eq_none_iff, List.getLast?_eq_none_iff] at hq
    have hempty : p.goodTimes t₁ = [] := by rw [← hgood, hq, List.filter_nil]
    have hnone : p.upTo t₁ = none := by rw [ParsedPackument.upTo, hempty]; rfl
    rw [hnone]
    rw [ParsedPackument.goodTimes] at hq
    rw [hq]
    exact ⟨fun _ => trivial, fun _ => trivial⟩
  | some q =>
    obtain ⟨last, hlast, -⟩ := ParsedPackument.upTo_eq_some hq
    have hqtimes := ParsedPackument.sortedTimes_upTo hq
    have hsub := ParsedPackument.goodTimes_sublist (p := p) t₂
    have hserved : Served C q := by
      refine ⟨ParsedPackument.wellFormed_upTo hp hq, ?_, ?_, ?_, ?_, ?_⟩
      · rw [hqtimes]
        exact List.ne_nil_of_mem (List.mem_of_getLast? hlast)
      · rw [hqtimes]
        exact fun e he => notReserved_of_parsePackument hj h e (hsub.subset he)
      · rw [hqtimes]
        exact fun e he => htimes e (hsub.subset he)
      · rw [ParsedPackument.createdTime_upTo hq]
        exact hcreated
      · obtain ⟨last', hlast', rfl⟩ := ParsedPackument.upTo_eq_some hq
        exact htimes last' (hsub.subset (List.mem_of_getLast? hlast'))
    obtain ⟨served, p', hserialize, hparse, hp', hp'times, hp'versions⟩ :=
      parsePackument_serialize hserved packageName
    have hseen : C.readServed packageName t₁ (C.serializePackumentInNpmFormat packageName (some q)) =
        C.restrictTime p' t₁ packageName := by
      rw [hserialize, PrintingChrono.readServed, hparse]
      rfl
    have hget : ∀ e ∈ p.goodTimes t₁, p'.versions.get e.1 = p.versions.get e.1 := by
      intro e he
      rw [← hgood, List.mem_filter] at he
      obtain ⟨hmem, hwithin⟩ := ParsedPackument.mem_goodTimes.mp he.1
      obtain ⟨blob, hblob⟩ := hp.get_of_mem hmem
      have hqblob := (ParsedPackument.get_upTo hp hq e.1 blob).mpr ⟨hblob, e.2, hmem, hwithin⟩
      rw [hp'versions e.1 (hqtimes ▸ List.mem_map_of_mem he.1), hqblob, hblob, Option.map_some,
        clean_of_parsePackument hj h hblob]
    rw [hseen, restrictTime_eq hp' t₁, samePast_iff hget, ← hgood, ParsedPackument.goodTimes, hp'times,
      hqtimes]
    exact filter_insertionSort_eq_iff (hp.sorted.sublist hsub)
      (List.Nodup.of_map _ (hp.nodup_goodTimes t₂))

end

def printedNewYears : PrintingChrono where
  toChrono := newYears
  toRfc3339Millis t :=
    if t = 1420070400000 then "2015-01-01T00:00:00.000Z" else "2016-01-01T00:00:00.000Z"

theorem reprints_twoReleases :
    (∀ e ∈ twoReleasesParsed.sortedTimes, printedNewYears.Reprints e.2) ∧
      printedNewYears.Reprints twoReleasesParsed.createdTime := by
  simp [twoReleasesParsed, PrintingChrono.Reprints, printedNewYears, newYears]

theorem samePast_twoReleases :
    SamePast (printedNewYears.pastSeen twoReleasesParsed "a" none none)
        (printedNewYears.restrictTime twoReleasesParsed none "a") ↔
      NoTie none (twoReleasesParsed.sortedTimes.filter fun e => decide (Within none e.2)).reverse := by
  have hparse : printedNewYears.parsePackument twoReleases "a" = .ok (some twoReleasesParsed) :=
    parsePackument_twoReleases
  exact samePast_pastSeen_iff distinctKeys_twoReleases hparse reprints_twoReleases.1
    reprints_twoReleases.2 fun _ h => h

/-- Two versions published at the same instant. -/
def sameInstant : JsonMap :=
  [("versions", .object [("1.0.0", .object []), ("1.0.1", .object [])]),
    ("time", .object [("created", .string "2015-01-01T00:00:00.000Z"),
      ("1.0.0", .string "2015-01-01T00:00:00.000Z"), ("1.0.1", .string "2015-01-01T00:00:00.000Z"),
      ("modified", .string "2015-01-01T00:00:00.000Z")])]

def sameInstantParsed : ParsedPackument Unit where
  latestTag := ()
  versions := [("1.0.0", .object []), ("1.0.1", .object [])]
  sortedTimes := [("1.0.1", 1420070400000), ("1.0.0", 1420070400000)]
  modifiedTime := 1420070400000
  createdTime := 1420070400000

def sameInstantRestricted (latestTag : String) (versions : JsonMap)
    (sortedTimes : List (String × DateTime)) : ParsedPackument String where
  latestTag := latestTag
  versions := versions
  sortedTimes := sortedTimes
  modifiedTime := 1420070400000
  createdTime := 1420070400000

theorem restrictTime_sameInstant : printedNewYears.restrictTime sameInstantParsed none "a" =
    .ok (some (sameInstantRestricted "1.0.0" [("1.0.1", .object []), ("1.0.0", .object [])]
      [("1.0.1", 1420070400000), ("1.0.0", 1420070400000)])) := rfl

theorem pastSeen_sameInstant : printedNewYears.pastSeen sameInstantParsed "a" none none =
    .ok (some (sameInstantRestricted "1.0.1" [("1.0.0", .object []), ("1.0.1", .object [])]
      [("1.0.0", 1420070400000), ("1.0.1", 1420070400000)])) := by
  rw [PrintingChrono.pastSeen_of_ok _ restrictTime_sameInstant]
  rfl

/-- The latest tag is `1.0.0` at the registry and `1.0.1` at the solver. -/
theorem not_samePast_sameInstant :
    ¬∀ (C : PrintingChrono) (j : JsonMap) (packageName : String) (p : ParsedPackument Unit),
      DistinctKeys j → C.parsePackument j packageName = .ok (some p) →
      (∀ e ∈ p.sortedTimes, C.Reprints e.2) → C.Reprints p.createdTime →
      ∀ t₁ t₂ : Option DateTime, (∀ time, Within t₁ time → Within t₂ time) →
        SamePast (C.pastSeen p packageName t₁ t₂) (C.restrictTime p t₁ packageName) := by
  intro h
  have hdistinct : DistinctKeys sameInstant := by
    refine ⟨by decide, ?_, ?_⟩ <;>
    · intro m hm
      cases hm
      decide
  have hsame := h printedNewYears sameInstant "a" sameInstantParsed hdistinct rfl
    (by simp [sameInstantParsed, PrintingChrono.Reprints, printedNewYears, newYears])
    (by simp [sameInstantParsed, PrintingChrono.Reprints, printedNewYears, newYears])
    none none fun _ hw => hw
  rw [pastSeen_sameInstant, restrictTime_sameInstant] at hsame
  exact absurd hsame.1 (by decide)

end NpmFollower.HistoricSolverJob
