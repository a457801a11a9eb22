import NpmFollower.BlobIdxServer.Blob
import NpmFollower.PostgresDb.DownloadQueue
import NpmFollower.PostgresDb.Json

/-! # Jobs of the cluster downloader

A chunk of tasks is downloaded by one job. The answer to the job decides which
of the URLs are recorded as downloaded and which are marked as failed. Each URL
is to be handled once, which an answer about one existing blob does not ensure.
-/

namespace NpmFollower.Downloader

open Std PostgresDb BlobIdxServer

abbrev NonZeroU16 := {n : UInt16 // n ≠ 0}

inductive ClientError where
  | downloadFailed (urls : List (String × NonZeroU16))
  | ioError (e : String)
  | reqwestError (e : String)
  | httpServerError (status : NonZeroU16)
  | blobError (e : BlobError)
  | serdeJsonError (e : String)
  | duplicateTarballName (name : String)
  | binaryDoesNotExist
  | invalidOutput
  | timeout
deriving DecidableEq

/-- The URLs that the error is about, as far as the downloader reads them. -/
def ClientError.urls : ClientError → List String
  | .downloadFailed urls => urls.map Prod.fst
  | .blobError (.alreadyExists url) => [url]
  | _ => []

inductive DownloadError where
  | request
  | statusNotOk (status : UInt16)
  | io
  | badlyFormattedUrl
  | clusterError
deriving DecidableEq

def DownloadError.toDownloadFailed : DownloadError → DownloadFailed
  | .statusNotOk status => .res status
  | .io => .io
  | .badlyFormattedUrl => .badlyFormattedUrl
  | _ => .other

/-- What comes back from `/job/submit`: no text when sending or reading fails. -/
inductive Response where
  | requestError
  | text (txt : String)

abbrev TarballResult := Except (DownloadTask × DownloadError) DownloadedTarball

abbrev ClusterResult := Except (DownloadError × List DownloadTask) (List TarballResult)

/-- The statements that process a result. -/
inductive Call where
  | updateFromError (task : DownloadTask) (error : DownloadFailed)
  | updateFromTarballs (tarballs : List DownloadedTarball)

def Call.recorded : Call → List String
  | .updateFromError _ _ => []
  | .updateFromTarballs tarballs => tarballs.map DownloadedTarball.tarballUrl

def Call.failed : Call → List String
  | .updateFromError task _ => [task.url]
  | .updateFromTarballs _ => []

namespace ClusterJob

section

variable (tasks : BTreeMap String DownloadTask) (now : DownloadTask → DateTime)

/-- An entry of `tbs` for a URL; `none` is the panic on a URL without a task. -/
def downloaded (url : String) : Option TarballResult :=
  tasks[url]?.map fun task => .ok (.fromTaskBlob (now task) task url none)

/-- The loop over the failed URLs, with `tbs` and `urls`. -/
def failUrl (state : List TarballResult × List String) (failed : String × NonZeroU16) :
    Option (List TarballResult × List String) :=
  tasks[failed.1]?.map fun task =>
    (state.1 ++ [.error (task, .statusNotOk failed.2)], state.2.filter fun url => url ≠ failed.1)

/-- The result of the job for an error of the client, with what is left of `urls`. -/
def handleError (urls : List String) :
    ClientError → Option (Except DownloadError (List TarballResult) × List String)
  | .blobError (.alreadyExists url) => (downloaded tasks now url).map fun tb => (.ok [tb], urls)
  | .downloadFailed failedUrls => do
    let state ← failedUrls.foldlM (failUrl tasks) ([], urls)
    let good ← state.2.mapM (downloaded tasks now)
    return (.ok (state.1 ++ good), state.2)
  | _ => some (.error .clusterError, urls)

end

section

variable (fromStr : String → Option Value) (fromValue : Value → Option ClientError)

/-- The error in an answer that is not empty. -/
def parseError (txt : String) : Option ClientError :=
  match fromStr txt with
  | some (.object m) => fromValue ((JsonMap.get m "error").getD .null)
  | some _ => fromValue .null
  | none => none

/-- The error that the answer holds, if it is one. -/
def clientError : Response → Option ClientError
  | .requestError => none
  | .text txt => if txt.isEmpty then none else parseError fromStr fromValue txt

variable (tasks : BTreeMap String DownloadTask) (now : DownloadTask → DateTime)

def thunk (urls : List String) :
    Response → Option (Except DownloadError (List TarballResult) × List String)
  | .requestError => some (.error .request, urls)
  | .text txt =>
    if txt.isEmpty then
      (urls.mapM (downloaded tasks now)).map fun tbs => (.ok tbs, urls)
    else
      match parseError fromStr fromValue txt with
      | none => some (.error .clusterError, urls)
      | some err => handleError tasks now urls err

end

/-- The map from the URLs of a chunk to its tasks. -/
def urlToTask (chunk : List DownloadTask) : BTreeMap String DownloadTask :=
  (chunk.map fun task => (task.url, task)).foldl (fun m entry => m.insert entry.1 entry.2) ∅

/-- The task spawned for one chunk. -/
def result (fromStr : String → Option Value) (fromValue : Value → Option ClientError)
    (now : DownloadTask → DateTime) (chunk : List DownloadTask) (response : Response) : Option ClusterResult :=
  (thunk fromStr fromValue (urlToTask chunk) now (chunk.map DownloadTask.url) response).map
    fun (res, urls) => res.mapError fun e => (e, urls.filterMap fun url => (urlToTask chunk)[url]?)

/-- The loop over the handles, for one of them. -/
def record : ClusterResult → List Call
  | .ok tbs =>
    let goodTbs := tbs.filterMap Except.toOption
    let errors := tbs.filterMap fun
      | .ok _ => none
      | .error (task, err) => some (.updateFromError task err.toDownloadFailed)
    errors ++ if goodTbs.isEmpty then [] else [.updateFromTarballs goodTbs]
  | .error (e, tasks) => tasks.map fun task => .updateFromError task e.toDownloadFailed

def recorded (calls : List Call) : List String := calls.flatMap Call.recorded

def failed (calls : List Call) : List String := calls.flatMap Call.failed

/-- Each URL of the chunk is either recorded or marked as failed. -/
def OneWay (chunk : List DownloadTask) (calls : List Call) : Prop :=
  ∀ task ∈ chunk, Xor (task.url ∈ recorded calls) (task.url ∈ failed calls)

/-- And that by one call. -/
def Once (chunk : List DownloadTask) (calls : List Call) : Prop :=
  ∀ task ∈ chunk, (recorded calls).count task.url + (failed calls).count task.url = 1

/-- An existing blob is only reported for a chunk of one URL. -/
def ExistsAlone (chunk : List DownloadTask) (err : Option ClientError) : Prop :=
  ∀ url, err = some (.blobError (.alreadyExists url)) → chunk.length = 1

/-- No URL is reported as failed twice. -/
def FailsOnce (err : Option ClientError) : Prop :=
  ∀ urls, err = some (.downloadFailed urls) → (urls.map Prod.fst).Nodup

section

variable {tasks : BTreeMap String DownloadTask} (now : DownloadTask → DateTime)

/-- The URLs of the tarballs in `tbs`. -/
def goodUrls (tbs : List TarballResult) : List String :=
  (tbs.filterMap Except.toOption).map DownloadedTarball.tarballUrl

/-- The URLs of the tasks in `tbs` that failed. -/
def badUrls (tbs : List TarballResult) : List String :=
  tbs.filterMap fun
    | .ok _ => none
    | .error (task, _) => some task.url

@[simp] theorem goodUrls_ok (tb : DownloadedTarball) (tbs : List TarballResult) :
    goodUrls (.ok tb :: tbs) = tb.tarballUrl :: goodUrls tbs :=
  rfl

@[simp] theorem goodUrls_error (e : DownloadTask × DownloadError) (tbs : List TarballResult) :
    goodUrls (.error e :: tbs) = goodUrls tbs :=
  rfl

@[simp] theorem badUrls_ok (tb : DownloadedTarball) (tbs : List TarballResult) :
    badUrls (.ok tb :: tbs) = badUrls tbs :=
  rfl

@[simp] theorem badUrls_error (e : DownloadTask × DownloadError) (tbs : List TarballResult) :
    badUrls (.error e :: tbs) = e.1.url :: badUrls tbs :=
  rfl

theorem goodUrls_append (tbs tbs' : List TarballResult) :
    goodUrls (tbs ++ tbs') = goodUrls tbs ++ goodUrls tbs' := by
  simp [goodUrls]

theorem badUrls_append (tbs tbs' : List TarballResult) :
    badUrls (tbs ++ tbs') = badUrls tbs ++ badUrls tbs' := by
  simp [badUrls]

/-- Every URL stands in the map with its own task. -/
def Covers (tasks : BTreeMap String DownloadTask) (urls : List String) : Prop :=
  ∀ url ∈ urls, ∃ task, tasks[url]? = some task ∧ task.url = url

theorem downloaded_ok {url : String} {task : DownloadTask} (h : tasks[url]? = some task) :
    downloaded tasks now url = some (.ok (.fromTaskBlob (now task) task url none)) := by
  rw [downloaded, h, Option.map_some]

theorem mapM_downloaded {urls : List String} (h : Covers tasks urls) :
    ∃ tbs, urls.mapM (downloaded tasks now) = some tbs ∧ goodUrls tbs = urls ∧ badUrls tbs = [] := by
  induction urls with
  | nil => exact ⟨[], rfl, rfl, rfl⟩
  | cons url urls ih =>
    obtain ⟨task, htask, hurl⟩ := h url List.mem_cons_self
    obtain ⟨tbs, htbs, hgood, hbad⟩ := ih fun u hu => h u (List.mem_cons_of_mem _ hu)
    refine ⟨.ok (.fromTaskBlob (now task) task url none) :: tbs, ?_, ?_, ?_⟩
    · rw [List.mapM_cons, downloaded_ok now htask, htbs]
      rfl
    · rw [goodUrls_ok, hgood, DownloadedTarball.fromTaskBlob_tarballUrl, hurl]
    · rw [badUrls_ok, hbad]

/-- The loop over the failed URLs reports each of them and leaves the others. -/
theorem foldlM_failUrl {l : List (String × NonZeroU16)} (h : Covers tasks (l.map Prod.fst))
    (tbs : List TarballResult) (urls : List String) :
    ∃ tbs', l.foldlM (failUrl tasks) (tbs, urls) =
        some (tbs ++ tbs', urls.filter fun url => url ∉ l.map Prod.fst) ∧
      goodUrls tbs' = [] ∧ badUrls tbs' = l.map Prod.fst := by
  induction l generalizing tbs urls with
  | nil => exact ⟨[], by simp, rfl, rfl⟩
  | cons e l ih =>
    obtain ⟨task, htask, hurl⟩ := h e.1 (by simp)
    have hrest : Covers tasks (l.map Prod.fst) := fun u hu => h u (List.mem_cons_of_mem _ hu)
    obtain ⟨tbs', hfold, hgood, hbad⟩ := ih hrest (tbs ++ [.error (task, .statusNotOk e.2)])
      (urls.filter fun url => url ≠ e.1)
    refine ⟨.error (task, .statusNotOk e.2) :: tbs', ?_, ?_, ?_⟩
    · rw [List.foldlM_cons, failUrl, htask]
      simp only [Option.map_some, Option.bind_eq_bind, Option.bind_some]
      rw [hfold, List.filter_filter, List.append_assoc, List.singleton_append]
      congr 2
      apply List.filter_congr
      intro u _
      by_cases hu : u = e.1 <;> simp [hu]
    · rw [goodUrls_error, hgood]
    · rw [badUrls_error, hbad, List.map_cons, hurl]

end

/-- The calls for the tarballs that failed. -/
def errorCalls (tbs : List TarballResult) : List Call :=
  tbs.filterMap fun
    | .ok _ => none
    | .error (task, err) => some (.updateFromError task err.toDownloadFailed)

theorem recorded_errorCalls (tbs : List TarballResult) : recorded (errorCalls tbs) = [] := by
  induction tbs with
  | nil => rfl
  | cons tb tbs ih =>
    cases tb with
    | ok tb => exact ih
    | error e => exact ih

theorem failed_errorCalls (tbs : List TarballResult) : failed (errorCalls tbs) = badUrls tbs := by
  induction tbs with
  | nil => rfl
  | cons tb tbs ih =>
    cases tb with
    | ok tb => exact ih
    | error e => exact congrArg (e.1.url :: ·) ih

theorem recorded_record_ok (tbs : List TarballResult) :
    recorded (record (.ok tbs)) = goodUrls tbs := by
  have happend : recorded (record (.ok tbs)) = recorded (errorCalls tbs) ++
      recorded (if (tbs.filterMap Except.toOption).isEmpty then []
        else [.updateFromTarballs (tbs.filterMap Except.toOption)]) :=
    List.flatMap_append
  rw [happend, recorded_errorCalls, List.nil_append, goodUrls]
  cases tbs.filterMap Except.toOption with
  | nil => rfl
  | cons tb rest => simp [recorded, Call.recorded]

theorem failed_record_ok (tbs : List TarballResult) :
    failed (record (.ok tbs)) = badUrls tbs := by
  have happend : failed (record (.ok tbs)) = failed (errorCalls tbs) ++
      failed (if (tbs.filterMap Except.toOption).isEmpty then []
        else [.updateFromTarballs (tbs.filterMap Except.toOption)]) :=
    List.flatMap_append
  rw [happend, failed_errorCalls]
  split <;> simp [failed, Call.failed]

theorem recorded_record_error (e : DownloadError) (tasks : List DownloadTask) :
    recorded (record (.error (e, tasks))) = [] := by
  simp [recorded, record, Call.recorded]

theorem failed_record_error (e : DownloadError) (tasks : List DownloadTask) :
    failed (record (.error (e, tasks))) = tasks.map DownloadTask.url := by
  rw [failed, record, List.flatMap_map, List.map_eq_flatMap]
  rfl

/-- A job that is not started, or ends in an error of the whole chunk. -/
def FailsChunk (err : Option ClientError) : Prop :=
  (∀ url, err ≠ some (.blobError (.alreadyExists url))) ∧ ∀ urls, err ≠ some (.downloadFailed urls)

/-- What a result does with the URLs of a chunk. -/
inductive Handled (urls : List String) (err : Option ClientError) (calls : List Call) : Prop where
  | all (hrecorded : recorded calls = urls) (hfailed : failed calls = []) (herr : err = none)
  | none (hrecorded : recorded calls = []) (hfailed : failed calls = urls) (herr : FailsChunk err)
  | existing (url : String) (hrecorded : recorded calls = [url]) (hfailed : failed calls = [])
    (hmem : url ∈ urls) (herr : err = some (.blobError (.alreadyExists url)))
  | partly (l : List (String × NonZeroU16))
    (hrecorded : recorded calls = urls.filter fun url => url ∉ l.map Prod.fst)
    (hfailed : failed calls = l.map Prod.fst) (hmem : ∀ url ∈ l.map Prod.fst, url ∈ urls)
    (herr : err = some (.downloadFailed l))

variable {fromStr : String → Option Value} {fromValue : Value → Option ClientError}
  (now : DownloadTask → DateTime) {chunk : List DownloadTask} {response : Response}

theorem covers_urlToTask (hchunk : (chunk.map DownloadTask.url).Nodup) :
    Covers (urlToTask chunk) (chunk.map DownloadTask.url) := by
  intro url hurl
  obtain ⟨task, htask, rfl⟩ := List.mem_map.mp hurl
  refine ⟨task, FiniteMap.getElem?_foldl_insert_of_mem ?_ _ (List.mem_map_of_mem htask), rfl⟩
  rwa [List.map_map]

/-- The URLs of the tasks looked up for the URLs of the chunk. -/
theorem map_url_filterMap {tasks : BTreeMap String DownloadTask} {urls : List String}
    (h : Covers tasks urls) :
    (urls.filterMap fun url => tasks[url]?).map DownloadTask.url = urls := by
  induction urls with
  | nil => rfl
  | cons url urls ih =>
    obtain ⟨task, htask, hurl⟩ := h url List.mem_cons_self
    rw [List.filterMap_cons_some htask, List.map_cons, hurl,
      ih fun u hu => h u (List.mem_cons_of_mem _ hu)]

theorem handled_error {tasks : BTreeMap String DownloadTask} {urls : List String}
    (now : DownloadTask → DateTime) (hcovers : Covers tasks urls) (err : ClientError)
    (hurls : ∀ url ∈ err.urls, url ∈ urls) :
    ∃ r : Except DownloadError (List TarballResult) × List String,
      handleError tasks now urls err = some r ∧ Handled urls (some err)
        (record (r.1.mapError fun e => (e, r.2.filterMap fun url => tasks[url]?))) := by
  have hchunkError : FailsChunk (some err) → Handled urls (some err)
      (record (.error (.clusterError, urls.filterMap fun url => tasks[url]?))) := by
    intro herr
    refine .none (recorded_record_error _ _) ?_ herr
    rw [failed_record_error, map_url_filterMap hcovers]
  cases err with
  | downloadFailed l =>
    have hl : Covers tasks (l.map Prod.fst) := fun url hurl => hcovers url (hurls url hurl)
    have hrest : Covers tasks (urls.filter fun url => url ∉ l.map Prod.fst) :=
      fun url hurl => hcovers url (List.mem_filter.mp hurl).1
    obtain ⟨bad, hfold, hgoodBad, hbadBad⟩ := foldlM_failUrl hl [] urls
    obtain ⟨good, hgood, hgoodGood, hbadGood⟩ := mapM_downloaded now hrest
    refine ⟨(.ok (bad ++ good), urls.filter fun url => url ∉ l.map Prod.fst), ?_,
      .partly l ?_ ?_ hurls rfl⟩
    · simp only [handleError]
      rw [hfold, List.nil_append, Option.bind_eq_bind, Option.bind_some, hgood]
      rfl
    · rw [Except.mapError, recorded_record_ok, goodUrls_append, hgoodBad, hgoodGood, List.nil_append]
    · rw [Except.mapError, failed_record_ok, badUrls_append, hbadBad, hbadGood, List.append_nil]
  | blobError e =>
    cases e with
    | alreadyExists url =>
      obtain ⟨task, htask, hurl⟩ := hcovers url (hurls url (List.mem_singleton_self url))
      refine ⟨(.ok [.ok (.fromTaskBlob (now task) task url none)], urls), ?_,
        .existing url ?_ ?_ (hurls url (List.mem_singleton_self url)) rfl⟩
      · rw [handleError, downloaded_ok now htask, Option.map_some]
      · rw [Except.mapError, recorded_record_ok, goodUrls_ok,
          DownloadedTarball.fromTaskBlob_tarballUrl, hurl]
        rfl
      · rw [Except.mapError, failed_record_ok]
        rfl
    | _ => exact ⟨_, rfl, hchunkError ⟨nofun, nofun⟩⟩
  | _ => exact ⟨_, rfl, hchunkError ⟨nofun, nofun⟩⟩

/-- What `result` and `record` do, by what the answer holds. -/
theorem handled_result (hchunk : (chunk.map DownloadTask.url).Nodup)
    (hurls : ∀ err, clientError fromStr fromValue response = some err →
      ∀ url ∈ err.urls, url ∈ chunk.map DownloadTask.url) :
    ∃ r, result fromStr fromValue now chunk response = some r ∧
      Handled (chunk.map DownloadTask.url) (clientError fromStr fromValue response) (record r) := by
  have hcovers := covers_urlToTask hchunk
  have hchunkError : ∀ e : DownloadError, FailsChunk none → Handled (chunk.map DownloadTask.url) none
      (record (.error (e, (chunk.map DownloadTask.url).filterMap fun url =>
        (urlToTask chunk)[url]?))) := by
    intro e herr
    refine .none (recorded_record_error _ _) ?_ herr
    rw [failed_record_error, map_url_filterMap hcovers]
  cases response with
  | requestError => exact ⟨_, rfl, hchunkError _ ⟨nofun, nofun⟩⟩
  | text txt =>
    rw [result, thunk]
    by_cases hempty : txt.isEmpty
    · obtain ⟨tbs, htbs, hgood, hbad⟩ := mapM_downloaded now hcovers
      rw [if_pos hempty, htbs]
      refine ⟨.ok tbs, rfl, .all ?_ ?_ (if_pos hempty)⟩
      · rw [recorded_record_ok, hgood]
      · rw [failed_record_ok, hbad]
    · have hclient : clientError fromStr fromValue (.text txt) = parseError fromStr fromValue txt :=
        if_neg hempty
      rw [hclient] at hurls ⊢
      rw [if_neg hempty]
      cases herr : parseError fromStr fromValue txt with
      | none => exact ⟨_, rfl, hchunkError _ ⟨nofun, nofun⟩⟩
      | some err =>
        obtain ⟨r, hr, hhandled⟩ := handled_error now hcovers err (hurls err herr)
        dsimp only
        rw [hr]
        exact ⟨_, rfl, hhandled⟩

section

variable {err : Option ClientError} {calls : List Call}

/-- A chunk with a URL in it, each of whose tasks has that URL, has one task. -/
theorem length_eq_one_iff_url (hchunk : (chunk.map DownloadTask.url).Nodup) {url : String}
    (hurl : url ∈ chunk.map DownloadTask.url) :
    chunk.length = 1 ↔ ∀ task ∈ chunk, task.url = url := by
  constructor
  · intro hlength task htask
    obtain ⟨only, rfl⟩ := List.length_eq_one_iff.mp hlength
    rw [List.map_singleton, List.mem_singleton] at hurl
    rw [hurl, List.mem_singleton.mp htask]
  · intro hall
    have hreplicate : chunk.map DownloadTask.url = List.replicate chunk.length url := by
      rw [List.eq_replicate_iff]
      refine ⟨List.length_map _, fun u hu => ?_⟩
      obtain ⟨task, htask, rfl⟩ := List.mem_map.mp hu
      exact hall task htask
    rw [hreplicate] at hchunk
    have hle := List.nodup_replicate.mp hchunk
    have hpos : 0 < chunk.length := by
      rw [← List.length_map DownloadTask.url]
      exact List.length_pos_of_mem hurl
    omega

theorem Handled.oneWay (h : Handled (chunk.map DownloadTask.url) err calls)
    (hchunk : (chunk.map DownloadTask.url).Nodup) : OneWay chunk calls ↔ ExistsAlone chunk err := by
  cases h with
  | all hrecorded hfailed herr =>
    rw [OneWay, hrecorded, hfailed, herr]
    exact ⟨fun _ => nofun, fun _ task htask => .inl ⟨List.mem_map_of_mem htask, List.not_mem_nil⟩⟩
  | none hrecorded hfailed herr =>
    rw [OneWay, hrecorded, hfailed]
    exact ⟨fun _ url hurl => absurd hurl (herr.1 url),
      fun _ task htask => .inr ⟨List.mem_map_of_mem htask, List.not_mem_nil⟩⟩
  | existing url hrecorded hfailed hmem herr =>
    have hexists : ExistsAlone chunk err ↔ chunk.length = 1 := by
      rw [ExistsAlone, herr]
      exact ⟨fun h => h url rfl, fun h _ _ => h⟩
    rw [OneWay, hrecorded, hfailed, hexists, length_eq_one_iff_url hchunk hmem]
    simp [Xor]
  | partly l hrecorded hfailed hmem herr =>
    rw [OneWay, hrecorded, hfailed, herr]
    refine ⟨fun _ => nofun, fun _ task htask => ?_⟩
    have hmemUrl : task.url ∈ chunk.map DownloadTask.url := List.mem_map_of_mem htask
    by_cases hl : task.url ∈ l.map Prod.fst
    · exact .inr ⟨hl, fun hfilter => by simpa [hl] using (List.mem_filter.mp hfilter).2⟩
    · exact .inl ⟨List.mem_filter.mpr ⟨hmemUrl, decide_eq_true hl⟩, hl⟩

theorem Handled.once (h : Handled (chunk.map DownloadTask.url) err calls)
    (hchunk : (chunk.map DownloadTask.url).Nodup) :
    Once chunk calls ↔ ExistsAlone chunk err ∧ FailsOnce err := by
  have hcount : ∀ task ∈ chunk, (chunk.map DownloadTask.url).count task.url = 1 :=
    fun task htask => List.count_eq_one_of_mem hchunk (List.mem_map_of_mem htask)
  cases h with
  | all hrecorded hfailed herr =>
    rw [Once, hrecorded, hfailed, herr]
    simp only [List.count_nil, Nat.add_zero]
    exact ⟨fun _ => ⟨nofun, nofun⟩, fun _ => hcount⟩
  | none hrecorded hfailed herr =>
    rw [Once, hrecorded, hfailed]
    simp only [List.count_nil, Nat.zero_add]
    exact ⟨fun _ => ⟨fun url hurl => absurd hurl (herr.1 url),
      fun urls hurls => absurd hurls (herr.2 urls)⟩, fun _ => hcount⟩
  | existing url hrecorded hfailed hmem herr =>
    have hexists : ExistsAlone chunk err ∧ FailsOnce err ↔ chunk.length = 1 := by
      rw [ExistsAlone, FailsOnce, herr]
      exact ⟨fun h => h.1 url rfl, fun h => ⟨fun _ _ => h, nofun⟩⟩
    rw [Once, hrecorded, hfailed, hexists, length_eq_one_iff_url hchunk hmem]
    refine forall₂_congr fun task _ => ?_
    by_cases hurl : task.url = url
    · simp [hurl]
    · simp [hurl, Ne.symm hurl]
  | partly l hrecorded hfailed hmem herr =>
    have hfails : ExistsAlone chunk err ∧ FailsOnce err ↔ (l.map Prod.fst).Nodup := by
      rw [ExistsAlone, FailsOnce, herr]
      refine ⟨fun h => h.2 l rfl, fun h => ⟨nofun, ?_⟩⟩
      rintro urls ⟨⟩
      exact h
    rw [Once, hrecorded, hfailed, hfails]
    constructor
    · intro h
      rw [List.nodup_iff_count_eq_one]
      intro url hurl
      obtain ⟨task, htask, rfl⟩ := List.mem_map.mp (hmem url hurl)
      have hsum := h task htask
      have hpos := List.count_pos_iff.mpr hurl
      omega
    · intro hnodup task htask
      by_cases hl : task.url ∈ l.map Prod.fst
      · rw [List.count_eq_one_of_mem hnodup hl, List.count_eq_zero_of_not_mem]
        exact fun hfilter => by simpa [hl] using (List.mem_filter.mp hfilter).2
      · rw [List.count_eq_zero_of_not_mem hl, List.count_filter, hcount task htask]
        exact decide_eq_true hl

end

/-- The answer is handled in one way for each URL exactly when an existing blob is only reported
for a chunk of one URL, and by one call when moreover no URL is reported as failed twice. -/
theorem handles_iff (hchunk : (chunk.map DownloadTask.url).Nodup)
    (hurls : ∀ err, clientError fromStr fromValue response = some err →
      ∀ url ∈ err.urls, url ∈ chunk.map DownloadTask.url) :
    ∃ r, result fromStr fromValue now chunk response = some r ∧
      (OneWay chunk (record r) ↔ ExistsAlone chunk (clientError fromStr fromValue response)) ∧
      (Once chunk (record r) ↔ ExistsAlone chunk (clientError fromStr fromValue response) ∧
        FailsOnce (clientError fromStr fromValue response)) := by
  obtain ⟨r, hr, hhandled⟩ := handled_result now hchunk hurls
  exact ⟨r, hr, hhandled.oneWay hchunk, hhandled.once hchunk⟩

/-- A task that has not failed yet. -/
def freshTask (url : String) : DownloadTask :=
  ⟨url, none, none, none, none, none, none, none, 0, 0, none, none⟩

/-- serde_json on the body of one answer. -/
def fromStrOf (body : String) (error : Value) (txt : String) : Option Value :=
  if txt = body then some (.object [("error", error)]) else none

/-- `ClientError` read from the JSON of one error. -/
def fromValueOf (error : Value) (err : ClientError) (v : Value) : Option ClientError :=
  if v == error then some err else none

def notFoundBody : String :=
  "\x7b\"error\":\x7b\"type\":\"DownloadFailed\",\"data\":\x7b\"urls\":[[\"b\",404]]\x7d\x7d\x7d"

def notFoundValue : Value :=
  .object [("type", .string "DownloadFailed"),
    ("data", .object [("urls", .array [.array [.string "b", .number (.posInt 404)]])])]

def notFound : ClientError := .downloadFailed [("b", ⟨404, by decide⟩)]

/-- One of two URLs has status 404. -/
theorem handles_notFound :
    ∃ r, result (fromStrOf notFoundBody notFoundValue) (fromValueOf notFoundValue notFound)
        DownloadTask.queueTime [freshTask "a", freshTask "b"] (.text notFoundBody) = some r ∧
      OneWay [freshTask "a", freshTask "b"] (record r) ∧
      Once [freshTask "a", freshTask "b"] (record r) := by
  have herr : clientError (fromStrOf notFoundBody notFoundValue)
      (fromValueOf notFoundValue notFound) (.text notFoundBody) = some notFound := by
    decide +kernel
  have hurls : ∀ err, clientError (fromStrOf notFoundBody notFoundValue)
      (fromValueOf notFoundValue notFound) (.text notFoundBody) = some err →
        ∀ url ∈ err.urls, url ∈ [freshTask "a", freshTask "b"].map DownloadTask.url := by
    intro err h
    rw [herr] at h
    rw [← Option.some.inj h]
    decide
  obtain ⟨r, hr, hone, honce⟩ := handles_iff DownloadTask.queueTime (by decide) hurls
  rw [herr] at hone honce
  have hfails : FailsOnce (some notFound) := by
    intro urls h
    rw [← (ClientError.downloadFailed.inj (Option.some.inj h))]
    decide
  exact ⟨r, hr, hone.mpr nofun, honce.mpr ⟨nofun, hfails⟩⟩

def existsBody : String :=
  "\x7b\"error\":\x7b\"type\":\"BlobError\",\"data\":\x7b\"type\":\"AlreadyExists\",\"data\":\"a\"\x7d\x7d\x7d"

def existsValue : Value :=
  .object [("type", .string "BlobError"),
    ("data", .object [("type", .string "AlreadyExists"), ("data", .string "a")])]

/-- The blob of one of two URLs exists already: nothing happens to the other. -/
theorem not_handles_existing :
    ∃ r, result (fromStrOf existsBody existsValue)
        (fromValueOf existsValue (.blobError (.alreadyExists "a")))
        DownloadTask.queueTime [freshTask "a", freshTask "b"] (.text existsBody) = some r ∧
      recorded (record r) = ["a"] ∧ failed (record r) = [] ∧
      ¬OneWay [freshTask "a", freshTask "b"] (record r) := by
  have herr : parseError (fromStrOf existsBody existsValue)
      (fromValueOf existsValue (.blobError (.alreadyExists "a"))) existsBody =
        some (.blobError (.alreadyExists "a")) := by
    decide +kernel
  have htask : (urlToTask [freshTask "a", freshTask "b"])["a"]? = some (freshTask "a") := by
    decide +kernel
  have hempty : existsBody.isEmpty = false := by decide
  refine ⟨.ok [.ok (.fromTaskBlob 0 (freshTask "a") "a" none)], ?_, rfl, rfl, ?_⟩
  · rw [result, thunk, hempty, herr]
    simp only [handleError, downloaded, htask]
    rfl
  intro h
  rcases h (freshTask "b") (by decide) with ⟨hrecorded, -⟩ | ⟨hfailed, -⟩
  · exact absurd hrecorded (by decide)
  · exact absurd hfailed (by decide)

end ClusterJob

end NpmFollower.Downloader
