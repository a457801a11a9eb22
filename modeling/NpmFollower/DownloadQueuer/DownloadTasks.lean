import NpmFollower.DiffLogBuilder.VersionBlobs
import NpmFollower.PostgresDb.DownloadTarball

/-! # The download tasks of a change

The queuer reads the versions of a change a second time, for their tarballs. It
panics with the seq of the change where the document breaks an assumption; where
the deserialiser of the diff log builder goes through, so does the queuer.
-/

namespace NpmFollower.DownloadQueuer

open Std PostgresDb DiffLogBuilder

section Unwrapping

variable {α : Type} (seq : ℤ)

def seqDebugPrint (note : String) : String := note ++ " (seq = " ++ toString seq ++ ")"

/-- The error is the text of the panic. -/
def unwrapDebug (note : String) : Option α → Except String α
  | some x => .ok x
  | none => .error ("Expected Some, received None. Reason: " ++ seqDebugPrint seq note)

/-- `try_into` from `i64` to `i32`. -/
def tryIntoI32 (n : ℤ) : Except String ℤ :=
  if -(2 ^ 31) ≤ n ∧ n < 2 ^ 31 then .ok n
  else .error ("Expected Ok, received Err(TryFromIntError(())). Reason: " ++
    seqDebugPrint seq "too many files to fit in i32")

/-- A field that has to be there. -/
def required (decode : Value → Option α) (missing wrong : String) (field : Option Value) :
    Except String α := do
  let v ← unwrapDebug seq missing field
  unwrapDebug seq wrong (decode v)

/-- A field that may be absent. -/
def present (decode : Value → Option α) (wrong : String) : Option Value → Except String (Option α)
  | none => .ok none
  | some v => (unwrapDebug seq wrong (decode v)).map some

end Unwrapping

def freshTask (now : DateTime) (url : String) (shasum : Option String)
    (unpackedSize fileCount : Option ℤ)
    (integrity signature0Sig signature0Keyid npmSignature : Option String) : DownloadTask where
  url
  shasum
  unpackedSize
  fileCount
  integrity
  signature0Sig
  signature0Keyid
  npmSignature
  queueTime := now
  numFailures := 0
  lastFailure := none
  failed := none

/-- An empty list of signatures is as good as none. -/
def firstSignature (seq : ℤ) (dist : JsonMap) : Except String (Option JsonMap) := do
  match ← present seq Value.asArray "signatures must be an array" (dist.get "signatures") with
  | some (s :: _) => (unwrapDebug seq "signature must be an object" s.asObject).map some
  | _ => return none

def taskForVersion (seq : ℤ) (now : DateTime) (vData : Value) : Except String DownloadTask := do
  let dist ← required seq Value.asObject "Expected dist field" "dist field must be an object"
    (vData.asObject.bind (·.get "dist"))
  let sig0 ← firstSignature seq dist
  let url ← required seq Value.asString "Missing tarball field" "Tarball field must be a string"
    (dist.get "tarball")
  let shasum ← present seq Value.asString "shasum must be a string" (dist.get "shasum")
  let unpackedSize ← present seq Value.asI64 "unpackedSize must be a number"
    (dist.get "unpackedSize")
  let fileCount ← present seq Value.asI64 "fileCount must be a number" (dist.get "fileCount")
  let fileCount ← fileCount.mapM (tryIntoI32 seq)
  let integrity ← present seq Value.asString "integrity must be a string" (dist.get "integrity")
  let signature0Sig ← sig0.mapM fun s =>
    required seq Value.asString "Missing sig field" "sig must be a string" (s.get "sig")
  let signature0Keyid ← sig0.mapM fun s =>
    required seq Value.asString "Missing keyid field" "keyid must be a string" (s.get "keyid")
  let npmSignature ← present seq Value.asString "npm-signature must be a string"
    (dist.get "npm-signature")
  return freshTask now url shasum unpackedSize fileCount integrity signature0Sig signature0Keyid
    npmSignature

/-- `now` is the time at which the task of a version is made. -/
def downloadTasksForChange (now : String → DateTime) (change : Change) :
    Except String (List DownloadTask) := do
  let seq := change.seq
  let field := fun key => change.rawJson.asObject.bind fun j => j.get key
  let deleted ← required seq Value.asBool "Expected deleted field" "Deleted field must be a boolean"
    (field "deleted")
  if deleted then return []
  let package ← required seq Value.asString "Expected id field" "Id field must be a string"
    (field "id")
  if package = "_design/app" ∨ package = "_design/scratch" then return []
  let doc ← required seq Value.asObject "Expected doc field" "Doc field must be an object"
    (field "doc")
  let docId ← required seq Value.asString "Expected _id field in doc" "_id field must be a string"
    (doc.get "_id")
  if docId ≠ package then
    throw ("Doc _id does not match id (seq = " ++ toString seq ++ ")")
  -- a document whose versions were unpublished has none
  let versions ← present seq Value.asObject "Versions field must be an object" (doc.get "versions")
  (versions.getD []).mapM fun e => taskForVersion seq (now e.1) e.2

/-! ## What the diff log builder reads is queued -/

/-- `Map` holds a key once. -/
inductive OnceKeyed : Value → Prop where
  | null : OnceKeyed .null
  | bool (b : Bool) : OnceKeyed (.bool b)
  | number (n : Number) : OnceKeyed (.number n)
  | string (s : String) : OnceKeyed (.string s)
  | array {xs : List Value} (values : ∀ x ∈ xs, OnceKeyed x) : OnceKeyed (.array xs)
  | object {m : JsonMap} (keys : (m.map Prod.fst).Nodup) (values : ∀ e ∈ m, OnceKeyed e.2) :
    OnceKeyed (.object m)

/-- What is left of an object after some of its fields were removed. -/
structure LeftOf (whole : JsonMap) (taken : List String) (m : JsonMap) : Prop where
  keys : (m.map Prod.fst).Nodup
  get : ∀ key ∉ taken, m.get key = whole.get key

section Leftovers

variable {α : Type} {decode : Value → Option α} {whole m rest : JsonMap} {taken : List String}
  {key : String} {seq : ℤ} {missing wrong : String}

theorem OnceKeyed.object_inv (h : OnceKeyed (.object m)) :
    (m.map Prod.fst).Nodup ∧ ∀ e ∈ m, OnceKeyed e.2 := by
  cases h with
  | object keys values => exact ⟨keys, values⟩

theorem OnceKeyed.of_get (h : OnceKeyed (.object m)) {v : Value} (hv : m.get key = some v) :
    OnceKeyed v :=
  h.object_inv.2 _ (JsonMap.mem_of_get hv)

theorem LeftOf.refl (h : (m.map Prod.fst).Nodup) : LeftOf m [] m := ⟨h, fun _ _ => rfl⟩

theorem present_of_remove {a : Option α} (h : m.removeKeyUnwrapType decode key = some (a, rest)) :
    present seq decode wrong (m.get key) = .ok a := by
  cases a with
  | none => rw [Parsers.get_of_removeKeyUnwrapType_none h, present]
  | some a =>
    obtain ⟨v, hv, hdecode, -⟩ := Parsers.get_of_removeKeyUnwrapType h
    rw [hv, present, hdecode]
    rfl

theorem required_of_present {field : Option Value} {a : α}
    (h : present seq decode wrong field = .ok (some a)) :
    required seq decode missing wrong field = .ok a := by
  cases field with
  | none => cases h
  | some v =>
    rw [present] at h
    change unwrapDebug seq wrong (decode v) = .ok a
    cases hv : unwrapDebug seq wrong (decode v) with
    | error e =>
      rw [hv] at h
      cases h
    | ok b =>
      rw [hv] at h
      cases h
      rfl

/-- A field that one removes is what the other finds. -/
theorem LeftOf.remove (h : LeftOf whole taken m) {a : Option α}
    (hremove : m.removeKeyUnwrapType decode key = some (a, rest)) (hkey : key ∉ taken) :
    LeftOf whole (key :: taken) rest ∧
      ∀ seq wrong, present seq decode wrong (whole.get key) = .ok a := by
  have hrest := Parsers.snd_of_removeKeyUnwrapType hremove
  refine ⟨⟨?_, ?_⟩, fun seq wrong => ?_⟩
  · rw [hrest]
    exact JsonMap.nodup_remove h.keys key
  · intro key' hkey'
    rw [List.mem_cons, not_or] at hkey'
    rw [hrest, JsonMap.get_remove_of_ne h.keys hkey'.1, h.get key' hkey'.2]
  · rw [← h.get key hkey]
    exact present_of_remove hremove

end Leftovers

section Versions

variable {P : Parsers} {seq : ℤ}

theorem present_eq_some {α : Type} {decode : Value → Option α} {wrong : String}
    {field : Option Value} {a : α} (h : present seq decode wrong field = .ok (some a)) :
    ∃ v, field = some v ∧ decode v = some a := by
  cases field with
  | none => cases h
  | some v =>
    refine ⟨v, rfl, ?_⟩
    rw [present] at h
    cases hv : decode v with
    | none =>
      rw [hv] at h
      cases h
    | some b =>
      rw [hv] at h
      cases h
      rfl

theorem mapM_some_ok {α β : Type} {f : α → Except String β} {a : α} {b : β} (h : f a = .ok b) :
    (some a).mapM f = .ok (some b) := by
  change some <$> f a = _
  rw [h]
  rfl

theorem asArray_eq_some {v : Value} {xs : List Value} (h : v.asArray = some xs) :
    v = .array xs := by
  cases v <;> cases h
  rfl

/-- The task for a tarball as the diff log builder describes it. -/
def distTask (now : DateTime) (d : Dist) : DownloadTask :=
  freshTask now d.tarballUrl d.shasum d.unpackedSize d.fileCount d.integrity d.signature0Sig
    d.signature0Keyid d.npmSignature

theorem firstSignature_of_sig0 {dist : JsonMap} (hdist : OnceKeyed (.object dist))
    {sigs : Option (List Value)} {sig0 : Option (String × String)}
    (hsigs : ∀ seq wrong, present seq Value.asArray wrong (dist.get "signatures") = .ok sigs)
    (h : Parsers.deserializeSig0 sigs = some sig0) (seq : ℤ) :
    ∃ first, firstSignature seq dist = .ok first ∧
      (first.mapM fun s => required seq Value.asString "Missing sig field" "sig must be a string"
        (s.get "sig")) = .ok (sig0.map Prod.fst) ∧
      (first.mapM fun s => required seq Value.asString "Missing keyid field"
        "keyid must be a string" (s.get "keyid")) = .ok (sig0.map Prod.snd) := by
  cases sigs with
  | none =>
    cases h
    refine ⟨none, ?_, rfl, rfl⟩
    rw [firstSignature, hsigs]
    rfl
  | some sigs =>
    cases sigs with
    | nil => cases h
    | cons s tail =>
      obtain ⟨o, ho, h⟩ := Option.bind_eq_some_iff.mp h
      obtain ⟨⟨sig, rest⟩, hsig, h⟩ := Option.bind_eq_some_iff.mp h
      obtain ⟨⟨keyid, rest'⟩, hkeyid, h⟩ := Option.bind_eq_some_iff.mp h
      obtain ⟨sig', rfl, hlast⟩ := Option.bind_eq_some_iff.mp h
      obtain ⟨keyid', rfl, hlast⟩ := Option.bind_eq_some_iff.mp hlast
      cases hlast
      have hs : OnceKeyed (.object o) := by
        obtain ⟨v, hv, hvarray⟩ := present_eq_some (hsigs 0 "")
        have hkeyed := hdist.of_get hv
        rw [asArray_eq_some hvarray] at hkeyed
        cases hkeyed with
        | array values =>
          rw [← Parsers.asObject_eq_some ho]
          exact values s List.mem_cons_self
      obtain ⟨hleft, hsig⟩ := (LeftOf.refl hs.object_inv.1).remove hsig (by simp)
      obtain ⟨-, hkeyid⟩ := hleft.remove hkeyid (by decide)
      refine ⟨some o, ?_, mapM_some_ok (required_of_present (hsig seq _)),
        mapM_some_ok (required_of_present (hkeyid seq _))⟩
      rw [firstSignature, hsigs]
      change (unwrapDebug seq _ s.asObject).map some = _
      rw [ho]
      rfl

theorem mapM_tryIntoI32 {fileCount : Option ℤ}
    (h : ∀ n ∈ fileCount, -(2 ^ 31) ≤ n ∧ n < 2 ^ 31) :
    fileCount.mapM (tryIntoI32 seq) = .ok fileCount := by
  cases fileCount with
  | none => rfl
  | some n =>
    apply mapM_some_ok
    rw [tryIntoI32, if_pos (h n rfl)]

/-- The fields of `dist` are read alike. -/
theorem taskForVersion_of_dist {o dist : JsonMap} {d : Dist}
    (hget : o.get "dist" = some (.object dist)) (hdist : OnceKeyed (.object dist))
    (h : Parsers.deserializeDist dist = some d) (seq : ℤ) (now : DateTime) :
    taskForVersion seq now (.object o) = .ok (distTask now d) := by
  obtain ⟨⟨sigs, m⟩, hsigs, h⟩ := Option.bind_eq_some_iff.mp h
  obtain ⟨sig0, hsig0, h⟩ := Option.bind_eq_some_iff.mp h
  obtain ⟨⟨tarballUrl, m⟩, hurl, h⟩ := Option.bind_eq_some_iff.mp h
  obtain ⟨⟨shasum, m⟩, hshasum, h⟩ := Option.bind_eq_some_iff.mp h
  obtain ⟨⟨unpackedSize, m⟩, hsize, h⟩ := Option.bind_eq_some_iff.mp h
  obtain ⟨⟨fileCount, m⟩, hcount, h⟩ := Option.bind_eq_some_iff.mp h
  obtain ⟨_, hfits, h⟩ := Option.bind_eq_some_iff.mp h
  obtain ⟨⟨integrity, m⟩, hintegrity, h⟩ := Option.bind_eq_some_iff.mp h
  obtain ⟨⟨npmSignature, m⟩, hnpm, h⟩ := Option.bind_eq_some_iff.mp h
  obtain ⟨tarballUrl, rfl, h⟩ := Option.bind_eq_some_iff.mp h
  cases h
  obtain ⟨hleft, hsigs⟩ := (LeftOf.refl hdist.object_inv.1).remove hsigs (by simp)
  obtain ⟨hleft, hurl⟩ := hleft.remove hurl (by decide)
  obtain ⟨hleft, hshasum⟩ := hleft.remove hshasum (by decide)
  obtain ⟨hleft, hsize⟩ := hleft.remove hsize (by decide)
  obtain ⟨hleft, hcount⟩ := hleft.remove hcount (by decide)
  obtain ⟨hleft, hintegrity⟩ := hleft.remove hintegrity (by decide)
  obtain ⟨-, hnpm⟩ := hleft.remove hnpm (by decide)
  obtain ⟨first, hfirst, hsig, hkeyid⟩ := firstSignature_of_sig0 hdist hsigs hsig0 seq
  have hrange := (Option.guard_eq_some' _).mp hfits
  have hobject : required seq Value.asObject "Expected dist field" "dist field must be an object"
      ((Value.object o).asObject.bind (·.get "dist")) = .ok dist := by
    change required _ _ _ _ (o.get "dist") = _
    rw [hget]
    rfl
  simp only [taskForVersion, hobject, hfirst, required_of_present (hurl seq _), hshasum, hsize,
    hcount, mapM_tryIntoI32 hrange, hintegrity, hsig, hkeyid, hnpm, bind, Except.bind]
  rfl

/-- The deserialiser reads the `dist` that the document has for the version. -/
theorem dist_of_readVersion {times : BTreeMap Semver DateTime} {modified : DateTime}
    {e e' : String × Value} {r : Semver × VersionOnlyPackument} (he : OnceKeyed e.2)
    (hsame : Parsers.SameVersion e e') (h : P.readVersion times modified e' = some r) :
    ∃ o dist : JsonMap, e.2 = .object o ∧ o.get "dist" = some (.object dist) ∧
      Parsers.deserializeDist dist = some r.2.dist := by
  obtain ⟨version, -, h⟩ := Option.bind_eq_some_iff.mp h
  obtain ⟨o', ho', h⟩ := Option.bind_eq_some_iff.mp h
  obtain ⟨packument, hblob, heq⟩ := Option.bind_eq_some_iff.mp h
  cases heq
  have hobject := Parsers.asObject_eq_some ho'
  have hfound : ∃ o : JsonMap, e.2 = .object o ∧ (o'.map Prod.fst).Nodup ∧
      o'.get "dist" = o.get "dist" := by
    rcases hsame.2 with hsame | ⟨o, ho, hsame⟩
    · rw [hsame] at hobject
      rw [hobject] at he
      exact ⟨o', hobject, he.object_inv.1, rfl⟩
    · rw [hsame] at hobject
      cases hobject
      rw [ho] at he
      have hctime := JsonMap.nodup_remove he.object_inv.1 "ctime"
      refine ⟨o, ho, JsonMap.nodup_remove hctime "mtime", ?_⟩
      rw [JsonMap.get_remove_of_ne hctime (by decide),
        JsonMap.get_remove_of_ne he.object_inv.1 (by decide)]
  obtain ⟨o, ho, hkeys, hget⟩ := hfound
  obtain ⟨⟨_, b⟩, hprod, hblob⟩ := Option.bind_eq_some_iff.mp hblob
  obtain ⟨hkeys, hprod, -⟩ := get_of_deserializeDependencies hkeys hprod
  obtain ⟨⟨_, b⟩, hdev, hblob⟩ := Option.bind_eq_some_iff.mp hblob
  obtain ⟨hkeys, hdev, -⟩ := get_of_deserializeDependencies hkeys hdev
  obtain ⟨⟨_, b⟩, hpeer, hblob⟩ := Option.bind_eq_some_iff.mp hblob
  obtain ⟨hkeys, hpeer, -⟩ := get_of_deserializeDependencies hkeys hpeer
  obtain ⟨⟨_, b⟩, hoptional, hblob⟩ := Option.bind_eq_some_iff.mp hblob
  obtain ⟨hkeys, hoptional, -⟩ := get_of_deserializeDependencies hkeys hoptional
  obtain ⟨⟨_, b⟩, hremove, hblob⟩ := Option.bind_eq_some_iff.mp hblob
  obtain ⟨dist, hdist, hblob⟩ := Option.bind_eq_some_iff.mp hblob
  obtain ⟨d, hd, hblob⟩ := Option.bind_eq_some_iff.mp hblob
  obtain ⟨⟨_, b⟩, -, hblob⟩ := Option.bind_eq_some_iff.mp hblob
  cases hblob
  cases hdist
  obtain ⟨v, hv, hvobject, -⟩ := Parsers.get_of_removeKeyUnwrapType hremove
  refine ⟨o, dist, ho, ?_, hd⟩
  rw [← hget, ← hprod _ (by decide), ← hdev _ (by decide), ← hpeer _ (by decide),
    ← hoptional _ (by decide), hv, Parsers.asObject_eq_some hvobject]

/-- The tasks are those of the entries that a map of versions was made of, one for each. -/
def Queues (versions : AllVersionPackuments) (tasks : List DownloadTask) : Prop :=
  ∃ entries : List (Semver × VersionOnlyPackument), versions = ExtTreeMap.ofList entries compare ∧
    List.Forall₂ (fun e t => ∃ now, t = distTask now e.2.dist) entries tasks

theorem queues_nil : Queues ∅ [] := ⟨[], rfl, .nil⟩

theorem Queues.exists_task {versions : AllVersionPackuments} {tasks : List DownloadTask}
    (h : Queues versions tasks) {v : Semver} {p : VersionOnlyPackument}
    (hp : versions[v]? = some p) : ∃ t ∈ tasks, ∃ now, t = distTask now p.dist := by
  obtain ⟨entries, rfl, hentries⟩ := h
  have hmem := FiniteMap.mem_of_getElem?_ofList hp
  exact Folds.exists_of_mem_right hentries.flip hmem

end Versions

section Changes

variable {P : Parsers} {seq : ℤ}

theorem mapM_taskForVersion {times : BTreeMap Semver DateTime} {modified : DateTime}
    {vm vm' : JsonMap} {entries : List (Semver × VersionOnlyPackument)}
    (hkeyed : ∀ e ∈ vm, OnceKeyed e.2) (hsame : List.Forall₂ Parsers.SameVersion vm vm')
    (h : vm'.mapM (P.readVersion times modified) = some entries) (seq : ℤ)
    (now : String → DateTime) :
    ∃ tasks, (vm.mapM fun e => taskForVersion seq (now e.1) e.2) = .ok tasks ∧
      List.Forall₂ (fun e t => ∃ now, t = distTask now e.2.dist) entries tasks := by
  induction hsame generalizing entries with
  | nil =>
    cases h
    exact ⟨[], rfl, .nil⟩
  | @cons e e' vm vm' he _ ih =>
    rw [List.mapM_cons] at h
    obtain ⟨r, hr, h⟩ := Option.bind_eq_some_iff.mp h
    obtain ⟨rest, hrest, h⟩ := Option.bind_eq_some_iff.mp h
    cases h
    have hobject := hkeyed e List.mem_cons_self
    obtain ⟨o, dist, ho, hget, hdist⟩ := dist_of_readVersion hobject he hr
    rw [ho] at hobject
    obtain ⟨tasks, htasks, hentries⟩ :=
      ih (fun x hx => hkeyed x (List.mem_cons_of_mem _ hx)) hrest
    refine ⟨distTask (now e.1) r.2.dist :: tasks, ?_, .cons ⟨now e.1, rfl⟩ hentries⟩
    rw [List.mapM_cons, htasks, ho, taskForVersion_of_dist hget (hobject.of_get hget) hdist]
    rfl

/-- The queuer reads the versions of a document, and makes their tasks. -/
def ReadsVersions (seq : ℤ) (now : String → DateTime) (doc : JsonMap)
    (versions : AllVersionPackuments) : Prop :=
  ∃ vm tasks, present seq Value.asObject "Versions field must be an object"
      (doc.get "versions") = .ok vm ∧
    ((vm.getD []).mapM fun e => taskForVersion seq (now e.1) e.2) = .ok tasks ∧
    Queues versions tasks

variable {now : String → DateTime} {doc m : JsonMap} {taken : List String}
  {data : PackageOnlyPackument} {versions : AllVersionPackuments}

theorem readsVersions_none (h : doc.get "versions" = none) : ReadsVersions seq now doc ∅ := by
  refine ⟨none, [], ?_, rfl, queues_nil⟩
  rw [h]
  rfl

theorem readsVersions_normal (hdoc : OnceKeyed (.object doc)) (hleft : LeftOf doc taken m)
    (htaken : "versions" ∉ taken)
    (h : P.deserializePackumentBlobNormal m = some (data, versions)) :
    ReadsVersions seq now doc versions := by
  obtain ⟨R⟩ := P.exists_normalRun h
  obtain ⟨vm, hvm, hsame⟩ := R.versions_get hleft.keys
  rw [hleft.get _ htaken] at hvm
  obtain ⟨tasks, htasks, hentries⟩ :=
    mapM_taskForVersion (hdoc.of_get hvm).object_inv.2 hsame R.entries_eq seq now
  refine ⟨some vm, tasks, ?_, htasks, R.entries, R.versions_eq, hentries⟩
  rw [hvm]
  rfl

theorem versions_of_deserializePackumentBlobUnpublished
    (h : P.deserializePackumentBlobUnpublished m = some (data, versions)) :
    ¬ m.containsKey "versions" ∧ versions = ∅ := by
  obtain ⟨_, hguard, h⟩ := Option.bind_eq_some_iff.mp h
  obtain ⟨time, -, h⟩ := Option.bind_eq_some_iff.mp h
  obtain ⟨timeObject, -, h⟩ := Option.bind_eq_some_iff.mp h
  obtain ⟨times, -, h⟩ := Option.bind_eq_some_iff.mp h
  obtain ⟨unpublishedBlob, -, h⟩ := Option.bind_eq_some_iff.mp h
  cases h
  exact ⟨((Option.guard_eq_some' _).mp hguard).2, rfl⟩

/-- A document that is not deleted has no versions, or those of a normal packument. -/
theorem versions_of_live {docId name : String} {unpublished : Bool} (h : (if unpublished then
        (P.deserializePackumentBlobUnpublished m).bind fun x => some (docId, x.1, x.2)
      else if m.containsKey "dist-tags" then
        (P.deserializePackumentBlobNormal m).bind fun x => some (docId, x.1, x.2)
      else (guard (¬ m.containsKey "time" ∧ ¬ m.containsKey "versions") : Option Unit).bind
        fun _ => some (docId, .missingData, ∅)) = some (name, data, versions)) :
    (¬ m.containsKey "versions" ∧ versions = ∅) ∨
      P.deserializePackumentBlobNormal m = some (data, versions) := by
  split_ifs at h with hunpublished htags
  · obtain ⟨x, hblob, heq⟩ := Option.bind_eq_some_iff.mp h
    cases heq
    exact Or.inl (versions_of_deserializePackumentBlobUnpublished hblob)
  · obtain ⟨x, hblob, heq⟩ := Option.bind_eq_some_iff.mp h
    cases heq
    exact Or.inr hblob
  · obtain ⟨_, hguard, heq⟩ := Option.bind_eq_some_iff.mp h
    cases heq
    exact Or.inl ⟨((Option.guard_eq_some' _).mp hguard).2, rfl⟩

/-- The versions of a document are read by both or by neither. -/
theorem readsVersions_of_deserializePackumentDoc (hdoc : OnceKeyed (.object doc)) {del : Bool}
    {package name : String}
    (h : P.deserializePackumentDoc doc (some del) (some package) = some (name, data, versions)) :
    (∀ seq wrong, present seq Value.asString wrong (doc.get "_id") = .ok (some package)) ∧
      (del = true → versions = ∅) ∧
      (del = false → ∀ seq (now : String → DateTime), ReadsVersions seq now doc versions) := by
  obtain ⟨⟨docId?, m⟩, hid, h⟩ := Option.bind_eq_some_iff.mp h
  obtain ⟨docId, hdocId, h⟩ := Option.bind_eq_some_iff.mp h
  obtain ⟨⟨docDeleted, m⟩, hdeleted, h⟩ := Option.bind_eq_some_iff.mp h
  obtain ⟨⟨rev, m⟩, hrev, h⟩ := Option.bind_eq_some_iff.mp h
  obtain ⟨-, -, h⟩ := Option.bind_eq_some_iff.mp h
  obtain ⟨_, hcheck, h⟩ := Option.bind_eq_some_iff.mp h
  obtain ⟨_, hname, h⟩ := Option.bind_eq_some_iff.mp h
  have hcheck := (Option.guard_eq_some' _).mp hcheck del rfl
  have hname := (Option.guard_eq_some' _).mp hname package rfl
  obtain ⟨hleft, hid⟩ := (LeftOf.refl hdoc.object_inv.1).remove hid (by simp)
  obtain ⟨hleft, -⟩ := hleft.remove hdeleted (by decide)
  obtain ⟨hleft, -⟩ := hleft.remove hrev (by decide)
  refine ⟨fun seq wrong => ?_, fun hdel => ?_, fun hdel seq now => ?_⟩
  · rw [hname]
    exact hdocId ▸ hid seq wrong
  · rw [← hcheck, hdel, if_pos rfl] at h
    obtain ⟨-, -, h⟩ := Option.bind_eq_some_iff.mp h
    cases h
    rfl
  · rw [← hcheck, hdel, if_neg Bool.false_ne_true] at h
    have hcases : (¬ m.containsKey "versions" ∧ versions = ∅) ∨
        P.deserializePackumentBlobNormal m = some (data, versions) := by
      cases htime : m.get "time" with
      | none =>
        simp only [htime] at h
        exact @versions_of_live P m data versions docId name false h
      | some time =>
        simp only [htime] at h
        obtain ⟨unpublished, -, hread⟩ := Option.bind_eq_some_iff.mp h
        exact versions_of_live hread
    rcases hcases with ⟨hnone, rfl⟩ | hnormal
    · apply readsVersions_none
      rw [← hleft.get _ (by decide)]
      exact Option.not_isSome_iff_eq_none.mp hnone
    · exact readsVersions_normal hdoc hleft (by decide) hnormal

/-- Where the diff log builder reads a change, the queuer reads it without a panic, and makes the
tasks of its versions. -/
theorem queues_of_deserializeChange {change : Change} (hkeyed : OnceKeyed change.rawJson)
    {r : Option (String × PackageOnlyPackument × AllVersionPackuments)}
    (h : P.deserializeChange change = some r) (now : String → DateTime) :
    ∃ tasks, downloadTasksForChange now change = .ok tasks ∧
      Queues (r.elim ∅ fun read => read.2.2) tasks := by
  obtain ⟨j, hj, h⟩ := Option.bind_eq_some_iff.mp h
  obtain ⟨⟨del?, m⟩, hdel, h⟩ := Option.bind_eq_some_iff.mp h
  obtain ⟨del, hdelSome, h⟩ := Option.bind_eq_some_iff.mp h
  obtain ⟨⟨package?, m⟩, hid, h⟩ := Option.bind_eq_some_iff.mp h
  obtain ⟨package, hpackageSome, h⟩ := Option.bind_eq_some_iff.mp h
  rw [show del? = some del from hdelSome] at hdel
  rw [show package? = some package from hpackageSome] at hid
  rw [Parsers.asObject_eq_some hj] at hkeyed
  obtain ⟨hleft, hdel⟩ := (LeftOf.refl hkeyed.object_inv.1).remove hdel (by simp)
  obtain ⟨hleft, hid⟩ := hleft.remove hid (by decide)
  simp only [downloadTasksForChange, hj, Option.bind_some, required_of_present (hdel _ _), bind,
    Except.bind]
  by_cases hdesign : package = "_design/app" ∨ package = "_design/scratch"
  · rw [if_pos hdesign] at h
    cases h
    cases del with
    | true => exact ⟨[], rfl, queues_nil⟩
    | false =>
      refine ⟨[], ?_, queues_nil⟩
      simp only [required_of_present (hid _ _), if_pos hdesign]
      rfl
  · rw [if_neg hdesign] at h
    obtain ⟨⟨doc?, m⟩, hdoc, h⟩ := Option.bind_eq_some_iff.mp h
    obtain ⟨doc, hdocSome, h⟩ := Option.bind_eq_some_iff.mp h
    obtain ⟨⟨name, data, versions⟩, hparsed, h⟩ := Option.bind_eq_some_iff.mp h
    rw [show doc? = some doc from hdocSome] at hdoc
    cases h
    obtain ⟨-, hdoc⟩ := hleft.remove hdoc (by decide)
    obtain ⟨v, hv, hvobject⟩ := present_eq_some (hdoc 0 "")
    have hkeyedDoc := hkeyed.of_get hv
    rw [Parsers.asObject_eq_some hvobject] at hkeyedDoc
    obtain ⟨hdocId, hdeleted, hlive⟩ := readsVersions_of_deserializePackumentDoc hkeyedDoc hparsed
    cases del with
    | true =>
      refine ⟨[], rfl, ?_⟩
      change Queues versions []
      rw [hdeleted rfl]
      exact queues_nil
    | false =>
      obtain ⟨vm, tasks, hvm, htasks, hqueues⟩ := hlive rfl change.seq now
      refine ⟨tasks, ?_, hqueues⟩
      simp only [required_of_present (hid _ _), if_neg hdesign, required_of_present (hdoc _ _),
        required_of_present (hdocId _ _), ne_eq, not_true_eq_false, if_false, hvm]
      exact htasks

end Changes

end NpmFollower.DownloadQueuer
