import NpmFollower.BlobIdxClient.ComputeArguments
import NpmFollower.BlobIdxClient.StoredKeys
import NpmFollower.Downloader.ClusterJob
import NpmFollower.Library.Folds

/-! # Runs of the cluster downloader

A job has its chunk downloaded and stored by a client. What is recorded as downloaded
is to be found from then on: the job has stored it, or was told that it exists, which
the server also says of a key that is only reserved.
-/

namespace NpmFollower.Downloader

open Std PostgresDb BlobIdxServer BlobIdxClient Runs

/-- A job that has not been answered. -/
structure Job where
  chunk : List DownloadTask
  failures : List (String × NonZeroU16)
  /-- The session of the blobs that were downloaded, if there are any. -/
  session : Option CallId
  /-- The key that the session has been told to exist already. -/
  refused : Option String

/-- What `download_and_write` has of a URL. -/
abbrev Fetched := String × Except NonZeroU16 (List UInt8)

def blobsOf (downloads : List Fetched) : List Blob :=
  downloads.filterMap fun d => d.2.toOption.map fun bytes => ⟨d.1, bytes⟩

def failuresOf (downloads : List Fetched) : List (String × NonZeroU16) :=
  downloads.filterMap fun d =>
    match d.2 with
    | .ok _ => none
    | .error status => some (d.1, status)

/-- The argument of `submit_download_job` for a chunk. -/
def urlArgument (chunk : List DownloadTask) : String :=
  " ".intercalate (chunk.map DownloadTask.url)

/-- The store with its clients, the jobs and the table of what was downloaded. -/
structure Cluster where
  store : Store
  jobs : List Job
  tarballs : DownloadedTarballs

inductive ClusterAction where
  /-- The chunk is sent to a client, which has downloaded what it can. -/
  | submit (chunk : List DownloadTask) (downloads : List Fetched) (nodeId : String)
  /-- A client of the store or the server goes on. -/
  | move (m : Move)
  /-- A job is answered, and its result is processed. -/
  | answer (i : ℕ) (response : Response)

namespace Job

variable (w : Store) (job : Job)

def isStored : Bool :=
  (job.session.bind fun session => w.sessions[session]?).any fun x => x.state.isStored

/-- What `download_and_write` may return. Another error may come at any time. -/
def mayReturn : Except ClientError Unit → Bool
  | .ok _ => job.isStored w && job.failures.isEmpty
  | .error (.downloadFailed urls) =>
    decide (urls = job.failures) &&
      (job.session.isNone || (job.isStored w && !job.failures.isEmpty))
  | .error (.blobError (.alreadyExists key)) => decide (job.refused = some key)
  | .error _ => true

/-- What may come back from `/job/submit`. -/
def mayAnswer (fromStr : String → Option Value) (fromValue : Value → Option ClientError) :
    Response → Bool
  | .requestError => true
  | .text txt =>
    if txt.isEmpty then job.mayReturn w (.ok ())
    else (ClusterJob.parseError fromStr fromValue txt).all fun err => job.mayReturn w (.error err)

/-- A call has returned. -/
def refusedBy (session : Option CallId) (refused : Option String) (e : Event) : Option String :=
  match e.response with
  | .error (.alreadyExists key) => if session = some e.call then some key else refused
  | _ => refused

/-- The client learns that its session is refused. -/
def hear (es : List Event) : Job :=
  { job with refused := es.foldl (refusedBy job.session) job.refused }

end Job

/-- One of the statements that process a result. A statement that is rejected is a panic. -/
def Call.perform (numBytesNotNull : Bool) (tarballs : DownloadedTarballs) : Call → DownloadedTarballs
  | .updateFromError _ _ => tarballs
  | .updateFromTarballs rows => (upsertTarballs numBytesNotNull tarballs rows).getD tarballs

namespace Cluster

section Step

variable (fromStr : String → Option Value) (fromValue : Value → Option ClientError)
  (now : DownloadTask → DateTime) (numBytesNotNull : Bool)

def move (w : Cluster) (m : Move) : Option (Cluster × List Event) :=
  (w.store.step m).map fun r =>
    ({ w with store := r.1, jobs := w.jobs.map fun job => job.hear r.2 }, r.2)

def step (w : Cluster) : ClusterAction → Option (Cluster × List Event)
  | .submit chunk downloads nodeId =>
    if downloads.map Prod.fst = splitAt ' ' (urlArgument chunk) then
      let failures := failuresOf downloads
      if (blobsOf downloads).isEmpty then
        some ({ w with jobs := ⟨chunk, failures, none, none⟩ :: w.jobs }, [])
      else
        ({ w with jobs := ⟨chunk, failures, some w.store.server.nextCall, none⟩ :: w.jobs } :
          Cluster).move (.store (blobsOf downloads) nodeId)
    else none
  | .move m => w.move m
  | .answer i response => do
    let job ← w.jobs[i]?
    if job.mayAnswer w.store fromStr fromValue response then
      let calls := (ClusterJob.result fromStr fromValue now job.chunk response).map ClusterJob.record
      some ({ w with
        jobs := w.jobs.eraseIdx i
        tarballs := (calls.getD []).foldl (Call.perform numBytesNotNull) w.tarballs }, [])
    else none

end Step

/-- A lookup of the key would find it. -/
def Finds (w : Cluster) (key : String) : Prop :=
  ∃ slice, Server.lookupAnswer w.store.server.blob w.store.server.redis key = .slice slice

/-- What is recorded as downloaded is to be found. -/
def Readable (w : Cluster) : Prop :=
  ∀ (url : String) (row : DownloadedTarball), w.tarballs[url]? = some row →
    ∀ key, row.blobStorageKey = some key → w.Finds key

/-- No URL has a blank in it, and the store keeps its keys. -/
def KeepsKeys (w : Cluster) : ClusterAction → Prop
  | .submit chunk downloads nodeId => (∀ task ∈ chunk, ' ' ∉ task.url.toList) ∧
    w.store.KeepsKeys (.store (blobsOf downloads) nodeId)
  | .move m => w.store.KeepsKeys m
  | .answer _ _ => True

instance (w : Cluster) : (a : ClusterAction) → Decidable (w.KeepsKeys a)
  | .submit chunk downloads nodeId => inferInstanceAs (Decidable
      ((∀ task ∈ chunk, ' ' ∉ task.url.toList) ∧
        w.store.KeepsKeys (.store (blobsOf downloads) nodeId)))
  | .move m => inferInstanceAs (Decidable (w.store.KeepsKeys m))
  | .answer _ _ => isTrue trivial

/-- Nothing is recorded yet. -/
def initial (store : Store) : Cluster := ⟨store, [], ∅⟩

end Cluster

section Records

variable {fromStr : String → Option Value} {fromValue : Value → Option ClientError}
  {now : DownloadTask → DateTime} {tasks : BTreeMap String DownloadTask} {chunk : List DownloadTask}
  {response : Response} {tb : DownloadedTarball}

namespace ClusterJob

/-- The error for the whole chunk, or entries of `tbs`. -/
theorem key_of_downloaded {url : String} (h : downloaded tasks now url = some (.ok tb)) :
    tb.blobStorageKey = some url := by
  obtain ⟨task, -, heq⟩ := Option.map_eq_some_iff.mp h
  cases heq
  rfl

theorem key_of_mapM {urls : List String} {tbs : List TarballResult}
    (h : urls.mapM (downloaded tasks now) = some tbs) (hmem : .ok tb ∈ tbs) :
    ∃ url ∈ urls, tb.blobStorageKey = some url := by
  obtain ⟨url, hurl, heq⟩ := Folds.exists_of_mem_right (Folds.forall₂_of_mapM h) hmem
  exact ⟨url, hurl, key_of_downloaded heq⟩

/-- The loop over the failed URLs adds errors only, and leaves the other URLs. -/
theorem failed_spec {l : List (String × NonZeroU16)} {state state' : List TarballResult × List String}
    (h : l.foldlM (failUrl tasks) state = some state') :
    (∀ tb, .ok tb ∈ state'.1 → .ok tb ∈ state.1) ∧
      ∀ url ∈ state'.2, url ∈ state.2 ∧ url ∉ l.map Prod.fst := by
  induction l generalizing state with
  | nil =>
    cases h
    exact ⟨fun _ => id, fun url hurl => ⟨hurl, by simp⟩⟩
  | cons failed l ih =>
    rw [List.foldlM_cons] at h
    obtain ⟨state₁, hfail, hrest⟩ := Option.bind_eq_some_iff.mp h
    obtain ⟨task, -, rfl⟩ := Option.map_eq_some_iff.mp hfail
    obtain ⟨hgood, hurls⟩ := ih hrest
    refine ⟨fun tb htb => ?_, fun url hurl => ?_⟩
    · simpa using hgood tb htb
    · obtain ⟨hmem, hnot⟩ := hurls url hurl
      obtain ⟨hmem, hne⟩ := List.mem_filter.mp hmem
      refine ⟨hmem, ?_⟩
      rw [List.map_cons, List.mem_cons, not_or]
      exact ⟨of_decide_eq_true hne, hnot⟩

/-- What the answer says of a key that is recorded. -/
inductive Told (fromStr : String → Option Value) (fromValue : Value → Option ClientError)
    (urls : List String) (response : Response) (key : String) : Prop where
  | done (txt : String) (htext : response = .text txt) (hempty : txt.isEmpty) (hurl : key ∈ urls)
  | existing (herr : clientError fromStr fromValue response = some (.blobError (.alreadyExists key)))
  | others (l : List (String × NonZeroU16))
      (herr : clientError fromStr fromValue response = some (.downloadFailed l)) (hurl : key ∈ urls)
      (hnot : key ∉ l.map Prod.fst)

theorem told_of_handleError {urls rest : List String} {err : ClientError} {tbs : List TarballResult}
    (h : handleError tasks now urls err = some (.ok tbs, rest)) (hmem : .ok tb ∈ tbs)
    (herr : clientError fromStr fromValue response = some err) :
    ∃ key, tb.blobStorageKey = some key ∧ Told fromStr fromValue urls response key := by
  cases err with
  | downloadFailed l =>
    obtain ⟨state, hfold, hrest⟩ := Option.bind_eq_some_iff.mp h
    obtain ⟨good, hgood, heq⟩ := Option.bind_eq_some_iff.mp hrest
    cases heq
    obtain ⟨hnone, hurls⟩ := failed_spec hfold
    rcases List.mem_append.mp hmem with hbad | hgoodMem
    · cases hnone tb hbad
    · obtain ⟨url, hurl, hkey⟩ := key_of_mapM hgood hgoodMem
      obtain ⟨hurl, hnot⟩ := hurls url hurl
      exact ⟨url, hkey, .others l herr hurl hnot⟩
  | blobError e =>
    cases e with
    | alreadyExists url =>
      obtain ⟨tb', hdownloaded, heq⟩ := Option.map_eq_some_iff.mp h
      cases heq
      cases List.mem_singleton.mp hmem
      exact ⟨url, key_of_downloaded hdownloaded, .existing herr⟩
    | _ => cases h
  | _ => cases h

/-- A row that a job has recorded has the key of a URL, of which the answer says that it exists. -/
theorem told_of_recorded {r : ClusterResult} {rows : List DownloadedTarball}
    (h : result fromStr fromValue now chunk response = some r)
    (hcall : .updateFromTarballs rows ∈ record r) (hmem : tb ∈ rows) :
    ∃ key, tb.blobStorageKey = some key ∧
      Told fromStr fromValue (chunk.map DownloadTask.url) response key := by
  obtain ⟨⟨res, urls⟩, hthunk, rfl⟩ := Option.map_eq_some_iff.mp h
  cases res with
  | error e =>
    obtain ⟨task, -, heq⟩ := List.mem_map.mp hcall
    cases heq
  | ok tbs =>
    have hgood : .ok tb ∈ tbs := by
      rcases List.mem_append.mp hcall with herrors | hupdate
      · obtain ⟨tb', -, heq⟩ := List.mem_filterMap.mp herrors
        cases tb' <;> cases heq
      · split_ifs at hupdate
        · cases hupdate
        · cases List.mem_singleton.mp hupdate
          obtain ⟨tb', htb', heq⟩ := List.mem_filterMap.mp hmem
          cases tb' with
          | error e => cases heq
          | ok tb'' =>
            cases heq
            exact htb'
    cases response with
    | requestError => cases hthunk
    | text txt =>
      rw [thunk] at hthunk
      by_cases hempty : txt.isEmpty
      · rw [if_pos hempty] at hthunk
        obtain ⟨tbs', hmapM, heq⟩ := Option.map_eq_some_iff.mp hthunk
        cases heq
        obtain ⟨url, hurl, hkey⟩ := key_of_mapM hmapM hgood
        exact ⟨url, hkey, .done txt rfl hempty hurl⟩
      · rw [if_neg hempty] at hthunk
        cases herr : parseError fromStr fromValue txt with
        | none =>
          rw [herr] at hthunk
          cases hthunk
        | some err =>
          rw [herr] at hthunk
          refine told_of_handleError hthunk hgood ?_
          rw [clientError, if_neg hempty, herr]

end ClusterJob

/-- What holds of the blob storage keys of all rows. -/
def KeysHave (P : Option String → Prop) (table : DownloadedTarballs) : Prop :=
  ∀ (url : String) (row : DownloadedTarball), table[url]? = some row → P row.blobStorageKey

section Keys

variable {numBytesNotNull : Bool} {table table' : DownloadedTarballs} {P : Option String → Prop}
  {rows : List DownloadedTarball}

theorem KeysHave.insert (hold : KeysHave P table) {url : String} (hnew : P tb.blobStorageKey) :
    KeysHave P (table.insert url tb) := by
  intro url' row hrow
  rw [FiniteMap.getElem?_insert] at hrow
  split_ifs at hrow
  · cases hrow
    exact hnew
  · exact hold url' row hrow

/-- A row after an upsert is an old one, or has the key of a row of the upsert. -/
theorem KeysHave.upsertTarball (hold : KeysHave P table) (hnew : P tb.blobStorageKey)
    (h : upsertTarball numBytesNotNull table tb = some table') : KeysHave P table' := by
  rw [PostgresDb.upsertTarball] at h
  split_ifs at h
  cases hrow : table[tb.tarballUrl]? with
  | none =>
    rw [hrow] at h
    cases h
    exact hold.insert hnew
  | some old =>
    rw [hrow] at h
    dsimp only at h
    split_ifs at h
    cases h
    exact hold.insert (hold _ old hrow)

theorem KeysHave.upsertTarballs (hold : KeysHave P table) (hnew : ∀ row ∈ rows, P row.blobStorageKey)
    (h : upsertTarballs numBytesNotNull table rows = some table') : KeysHave P table' := by
  rw [PostgresDb.upsertTarballs] at h
  split_ifs at h with hnodup
  clear hnodup
  induction rows generalizing table with
  | nil =>
    cases h
    exact hold
  | cons row rows ih =>
    rw [List.foldlM_cons] at h
    obtain ⟨table₁, hupsert, hrest⟩ := Option.bind_eq_some_iff.mp h
    exact ih (hold.upsertTarball (hnew row List.mem_cons_self) hupsert)
      (fun row' hrow' => hnew row' (List.mem_cons_of_mem _ hrow')) hrest

theorem KeysHave.perform {calls : List Call} (hold : KeysHave P table)
    (hnew : ∀ rows, .updateFromTarballs rows ∈ calls → ∀ row ∈ rows, P row.blobStorageKey) :
    KeysHave P (calls.foldl (Call.perform numBytesNotNull) table) := by
  induction calls generalizing table with
  | nil => exact hold
  | cons call calls ih =>
    apply ih
    · cases call with
      | updateFromError task error => exact hold
      | updateFromTarballs rows =>
        rw [Call.perform]
        cases hupsert : PostgresDb.upsertTarballs numBytesNotNull table rows with
        | none => exact hold
        | some table' => exact hold.upsertTarballs (hnew rows List.mem_cons_self) hupsert
    · exact fun rows hrows => hnew rows (List.mem_cons_of_mem _ hrows)

end Keys

end Records

namespace Job

/-- The URLs of the chunk have failed or are keys of the session, and a key that the session was told
to exist is written. -/
structure Sound (w : Store) (job : Job) : Prop where
  stores : ∀ session ∈ job.session, ∃ x : Session, w.sessions[session]? = some x ∧
    ∀ url ∈ job.chunk.map DownloadTask.url, url ∉ job.failures.map Prod.fst →
      url ∈ keysOf (blobEntries x.blobs)
  fails : job.session = none → ∀ url ∈ job.chunk.map DownloadTask.url,
    url ∈ job.failures.map Prod.fst
  refused : ∀ key ∈ job.refused, w.server.blob.isWritten key

variable {w w' : Store} {job : Job} {m : Move} {es : List Event} {key : String}

theorem refused_hear (h : (job.hear es).refused = some key) :
    job.refused = some key ∨ ∃ e ∈ es, e.response = .error (.alreadyExists key) := by
  obtain ⟨chunk, failures, session, refused⟩ := job
  rw [hear] at h
  dsimp only at h ⊢
  induction es generalizing refused with
  | nil => exact .inl h
  | cons e es ih =>
    rw [List.foldl_cons] at h
    rcases ih _ h with hfirst | ⟨e', he', hresponse⟩
    · rw [refusedBy] at hfirst
      split at hfirst
      · rename_i key' hresponse
        split_ifs at hfirst
        · cases hfirst
          exact .inr ⟨e, List.mem_cons_self, hresponse⟩
        · exact .inl hfirst
      · exact .inl hfirst
    · exact .inr ⟨e', List.mem_cons_of_mem _ he', hresponse⟩

theorem written_of_refused_hear (hrefused : ∀ key ∈ job.refused, w.server.blob.isWritten key)
    (hkeeps : w.KeepsKeys m) (hstep : w.step m = some (w', es)) :
    ∀ key ∈ (job.hear es).refused, w'.server.blob.isWritten key := by
  intro key hkey
  rcases refused_hear hkey with hold | ⟨e, he, hresponse⟩
  · exact hkeeps.isWritten hstep (hrefused key hold)
  · exact hkeeps.isWritten_of_refused hstep he hresponse

theorem Sound.hear (h : job.Sound w) (hkept : w.KeysKept) (hkeeps : w.KeepsKeys m)
    (hstep : w.step m = some (w', es)) : (job.hear es).Sound w' := by
  refine ⟨fun session hsession => ?_, h.fails, written_of_refused_hear h.refused hkeeps hstep⟩
  obtain ⟨x, hx, hkeys⟩ := h.stores session hsession
  obtain ⟨x', hx', hblobs⟩ :=
    Store.blobs_step hstep hx (hkept.inv.matched.known session x hx)
  exact ⟨x', hx', by rwa [hblobs]⟩

/-- A URL that was asked for has failed, or is a key of the blobs. -/
theorem mem_downloads {downloads : List Fetched} {url : String}
    (h : url ∈ downloads.map Prod.fst) : url ∈ (failuresOf downloads).map Prod.fst ∨
      url ∈ keysOf (blobEntries (blobsOf downloads)) := by
  obtain ⟨⟨url, download⟩, hd, rfl⟩ := List.mem_map.mp h
  cases download with
  | error status =>
    left
    exact List.mem_map.mpr ⟨(url, status), List.mem_filterMap.mpr ⟨_, hd, rfl⟩, rfl⟩
  | ok bytes =>
    right
    rw [keysOf, blobEntries, List.map_map]
    exact List.mem_map.mpr ⟨⟨url, bytes⟩, List.mem_filterMap.mpr ⟨_, hd, rfl⟩, rfl⟩

/-- The client is given the URLs of the chunk, where none has a blank in it. -/
theorem mem_urlArgument {chunk : List DownloadTask} (hblank : ∀ task ∈ chunk, ' ' ∉ task.url.toList)
    {url : String} (h : url ∈ chunk.map DownloadTask.url) :
    url ∈ splitAt ' ' (urlArgument chunk) := by
  have hsplit : splitAt ' ' (urlArgument chunk) = chunk.map DownloadTask.url := by
    refine splitAt_intercalate_iff.mpr ⟨List.ne_nil_of_mem h, fun key hkey => ?_⟩
    obtain ⟨task, htask, rfl⟩ := List.mem_map.mp hkey
    exact hblank task htask
  rwa [hsplit]

section Submit

variable {chunk : List DownloadTask} {downloads : List Fetched} {nodeId : String}

theorem sound_failed (hblank : ∀ task ∈ chunk, ' ' ∉ task.url.toList)
    (hurls : downloads.map Prod.fst = splitAt ' ' (urlArgument chunk))
    (hnone : (blobsOf downloads).isEmpty) :
    Job.Sound w ⟨chunk, failuresOf downloads, none, none⟩ := by
  refine ⟨nofun, fun _ url hurl => ?_, nofun⟩
  have hmem := mem_urlArgument hblank hurl
  rw [← hurls] at hmem
  rcases mem_downloads hmem with hfailed | hstored
  · exact hfailed
  · rw [List.isEmpty_iff.mp hnone] at hstored
    cases hstored

theorem sound_submitted (hblank : ∀ task ∈ chunk, ' ' ∉ task.url.toList)
    (hurls : downloads.map Prod.fst = splitAt ' ' (urlArgument chunk))
    (hkeeps : w.KeepsKeys (.store (blobsOf downloads) nodeId))
    (hstep : w.step (.store (blobsOf downloads) nodeId) = some (w', es)) :
    ((⟨chunk, failuresOf downloads, some w.server.nextCall, none⟩ : Job).hear es).Sound w' := by
  refine ⟨?_, nofun, written_of_refused_hear nofun hkeeps hstep⟩
  rintro session ⟨⟩
  obtain ⟨s', -, rfl⟩ := Store.exists_of_serve hstep
  rw [Store.getElem?_hear]
  change ∃ x, ((w.addSession (blobsOf downloads) nodeId).sessions[w.server.nextCall]?).map _ =
    some x ∧ _
  rw [Store.getElem?_addSession, if_pos rfl]
  refine ⟨_, rfl, fun url hurl hnot => ?_⟩
  have hmem := mem_urlArgument hblank hurl
  rw [← hurls] at hmem
  exact (mem_downloads hmem).resolve_left hnot

end Submit

/-- A session that has stored its blobs has written its keys. -/
theorem Sound.written_of_stored (h : job.Sound w) (hkept : w.KeysKept) (hstored : job.isStored w)
    (hurl : key ∈ job.chunk.map DownloadTask.url) (hnot : key ∉ job.failures.map Prod.fst) :
    w.server.blob.isWritten key := by
  obtain ⟨x, hbind, hx⟩ := (Option.any_eq_true _ _).mp hstored
  obtain ⟨session, hsession, hget⟩ := Option.bind_eq_some_iff.mp hbind
  obtain ⟨x', hx', hkeys⟩ := h.stores session hsession
  cases hget.symm.trans hx'
  apply hkept.written session x hget _ key (hkeys key hurl hnot)
  cases hstate : x.state with
  | stored => rfl
  | _ => rw [hstate] at hx; cases hx

/-- What a job records is written. -/
theorem Sound.written {fromStr : String → Option Value} {fromValue : Value → Option ClientError}
    {response : Response} (h : job.Sound w) (hkept : w.KeysKept)
    (hanswer : job.mayAnswer w fromStr fromValue response)
    (htold : ClusterJob.Told fromStr fromValue (job.chunk.map DownloadTask.url) response key) :
    w.server.blob.isWritten key := by
  have hreturn : ∀ err, ClusterJob.clientError fromStr fromValue response = some err →
      job.mayReturn w (.error err) := by
    intro err herr
    cases response with
    | requestError => cases herr
    | text txt =>
      rw [ClusterJob.clientError] at herr
      split_ifs at herr with hempty
      rw [mayAnswer, if_neg hempty, herr] at hanswer
      exact hanswer
  cases htold with
  | done txt htext hempty hurl =>
    subst htext
    rw [mayAnswer, if_pos hempty, mayReturn, Bool.and_eq_true] at hanswer
    obtain ⟨hstored, hnone⟩ := hanswer
    apply h.written_of_stored hkept hstored hurl
    rw [List.isEmpty_iff.mp hnone]
    exact List.not_mem_nil
  | existing herr => exact h.refused key (of_decide_eq_true (hreturn _ herr))
  | others l herr hurl hnot =>
    have hreturned := hreturn _ herr
    rw [mayReturn, Bool.and_eq_true, Bool.or_eq_true, decide_eq_true_eq] at hreturned
    obtain ⟨rfl, hnone | hstored⟩ := hreturned
    · exact absurd (h.fails (Option.isNone_iff_eq_none.mp hnone) key hurl) hnot
    · exact h.written_of_stored hkept (Bool.and_eq_true_iff.mp hstored).1 hurl hnot

end Job

namespace Cluster

/-- What holds in a run in which the keys are kept. -/
structure Inv (shown : List Event) (w : Cluster) : Prop where
  kept : w.store.KeysKept
  jobs : ∀ job ∈ w.jobs, job.Sound w.store
  rows : KeysHave (fun k => ∀ key ∈ k, w.store.server.blob.isWritten key) w.tarballs
  refused : ∀ e ∈ shown, ∀ key, e.response = .error (.alreadyExists key) →
    w.store.server.blob.isWritten key

variable {w w' : Cluster} {shown es : List Event} {m : Move} {key : String}

theorem finds_of_isWritten (h : w.store.server.blob.isWritten key) : w.Finds key := by
  obtain ⟨hkey, l, hl, hwritten⟩ := BlobStorage.isWritten_iff.mp h
  refine ⟨l.slice, ?_⟩
  rw [Server.lookupAnswer, if_neg hkey, hl]
  exact if_pos hwritten

/-- The store goes on, with jobs that are sound then. -/
theorem Inv.move (hw : w.Inv shown) (hkeeps : w.store.KeepsKeys m) {store : Store}
    (hstep : w.store.step m = some (store, es)) {jobs : List Job}
    (hjobs : ∀ job ∈ jobs, job.Sound store) :
    ({ w with store, jobs } : Cluster).Inv (shown ++ es) := by
  refine ⟨hw.kept.step hkeeps hstep, hjobs, fun url row hrow key hkey => ?_, fun e he key hkey => ?_⟩
  · exact hkeeps.isWritten hstep (hw.rows url row hrow key hkey)
  · rcases List.mem_append.mp he with he | he
    · exact hkeeps.isWritten hstep (hw.refused e he key hkey)
    · exact hkeeps.isWritten_of_refused hstep he hkey

variable {fromStr : String → Option Value} {fromValue : Value → Option ClientError}
  {now : DownloadTask → DateTime} {numBytesNotNull : Bool} {a : ClusterAction}

theorem Inv.submit (hw : w.Inv shown) {chunk : List DownloadTask} {downloads : List Fetched}
    {nodeId : String} (hkeeps : w.KeepsKeys (.submit chunk downloads nodeId))
    (h : w.step fromStr fromValue now numBytesNotNull (.submit chunk downloads nodeId) =
      some (w', es)) : w'.Inv (shown ++ es) := by
  obtain ⟨hblank, hstore⟩ := hkeeps
  rw [step] at h
  split_ifs at h with hurls hnone
  · cases h
    rw [List.append_nil]
    refine ⟨hw.kept, fun job hjob => ?_, hw.rows, hw.refused⟩
    rcases List.mem_cons.mp hjob with rfl | hjob
    · exact Job.sound_failed hblank hurls hnone
    · exact hw.jobs job hjob
  · obtain ⟨⟨store, es'⟩, hstep, heq⟩ := Option.map_eq_some_iff.mp h
    cases heq
    apply hw.move hstore hstep
    intro job hjob
    obtain ⟨job₀, hjob₀, rfl⟩ := List.mem_map.mp hjob
    rcases List.mem_cons.mp hjob₀ with rfl | hjob₀
    · exact Job.sound_submitted hblank hurls hstore hstep
    · exact (hw.jobs job₀ hjob₀).hear hw.kept hstore hstep

theorem Inv.answer (hw : w.Inv shown) {i : ℕ} {response : Response}
    (h : w.step fromStr fromValue now numBytesNotNull (.answer i response) = some (w', es)) :
    w'.Inv (shown ++ es) := by
  obtain ⟨job, hjob, hrest⟩ := Option.bind_eq_some_iff.mp h
  split_ifs at hrest with hanswer
  cases hrest
  rw [List.append_nil]
  have hsound := hw.jobs job (List.mem_of_getElem? hjob)
  refine ⟨hw.kept, fun job' hjob' => hw.jobs job' (List.mem_of_mem_eraseIdx hjob'), ?_, hw.refused⟩
  apply hw.rows.perform
  intro rows hrows row hrow key hkey
  cases hresult : ClusterJob.result fromStr fromValue now job.chunk response with
  | none =>
    rw [hresult] at hrows
    cases hrows
  | some r =>
    rw [hresult] at hrows
    obtain ⟨key', hkey', htold⟩ := ClusterJob.told_of_recorded hresult hrows hrow
    cases hkey.symm.trans hkey'
    exact hsound.written hw.kept hanswer htold

theorem Inv.step (hw : w.Inv shown) (hkeeps : w.KeepsKeys a)
    (h : w.step fromStr fromValue now numBytesNotNull a = some (w', es)) :
    w'.Inv (shown ++ es) := by
  cases a with
  | submit chunk downloads nodeId => exact hw.submit hkeeps h
  | move m =>
    obtain ⟨⟨store, es'⟩, hstep, heq⟩ := Option.map_eq_some_iff.mp h
    cases heq
    apply hw.move hkeeps hstep
    intro job hjob
    obtain ⟨job₀, hjob₀, rfl⟩ := List.mem_map.mp hjob
    exact (hw.jobs job₀ hjob₀).hear hw.kept hkeeps hstep
  | answer i response => exact hw.answer h

/-- The row of a URL, and what a lookup of its key finds. -/
def recordedKey (w : Cluster) (url : String) : Option (Option String × BlobIdxServer.Response) :=
  (w.tarballs[url]?).map fun row => (row.blobStorageKey,
    Server.lookupAnswer w.store.server.blob w.store.server.redis (row.blobStorageKey.getD ""))

/-- The server and the creation of a session, from its first call to its answer. -/
def creates (session : CallId) (created : Bool) : List Move :=
  [.serve (.execute session), .serve (.resume session 0), .serve (.resume session 0)] ++
  (if created then [.serve (.execute session), .serve (.resume session 0)] else []) ++
  [.serve (.execute session), .serve (.resume session 0), .serve (.execute session),
    .serve (.resume session 0)]

/-- The session of a job stores its blob. -/
def stores : List Move :=
  creates 0 true ++
    [.openFile 0, .write 0 1, .write 0 0, .unlock 0, .serve (.execute 1), .serve (.resume 1 0)]

/-- A job stores its blob, and is answered without an error. -/
def storing : List ClusterAction :=
  [.submit [ClusterJob.freshTask "a"] [("a", .ok [1])] "node"] ++
    stores.map ClusterAction.move ++ [.answer 0 (.text "")]

/-- Another client has reserved the key of a job, and has not written it. -/
def existing : List ClusterAction :=
  ((.store [⟨"a", [1]⟩] "other" :: creates 0 true : List Move).map ClusterAction.move) ++
  [.submit [ClusterJob.freshTask "a"] [("a", .ok [1])] "node",
    .answer 0 (.text ClusterJob.existsBody)]

end Cluster

end NpmFollower.Downloader
