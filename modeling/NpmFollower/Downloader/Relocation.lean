import NpmFollower.Downloader.NoLostUrl

/-! # Where a downloaded tarball is

The CHECK of the table keeps a location in every row, and the upsert leaves a
blob key as it finds it. A tarball downloaded to a blob is therefore recorded
where its row already has another key only under that other key.
-/

namespace NpmFollower.PostgresDb

open Std

namespace DownloadedTarball

/-- The row after the upsert of `t`. -/
def upserted (old : Option DownloadedTarball) (t : DownloadedTarball) : DownloadedTarball :=
  match old with
  | none => t
  | some old => old.setExcluded t

theorem upserted_tgzLocalPath (old : Option DownloadedTarball) (t : DownloadedTarball) :
    (upserted old t).tgzLocalPath = t.tgzLocalPath := by
  cases old <;> rfl

/-- The data of a row is somewhere. -/
def Located (t : DownloadedTarball) : Prop := t.tgzLocalPath.isSome ∨ t.blobStorageKey.isSome

theorem located_of_check {b : Bool} {t : DownloadedTarball} (h : t.check b) : t.Located := by
  simp only [check, Bool.and_eq_true, Bool.or_eq_true] at h
  exact h.1

theorem located_setBlobStorageKey (t : DownloadedTarball) (key : String) :
    Located { t with blobStorageKey := some key } :=
  .inr rfl

theorem check_setBlobStorageKey {b : Bool} {t : DownloadedTarball} (h : t.check b) (key : String) :
    check b { t with blobStorageKey := some key } := by
  simp only [check, Bool.and_eq_true] at h ⊢
  exact ⟨by simp, h.2⟩

end DownloadedTarball

open DownloadedTarball

variable {b : Bool} {table table' : DownloadedTarballs} {t : DownloadedTarball}
  {tarballs : List DownloadedTarball}

theorem upsertTarball_eq (b : Bool) (table : DownloadedTarballs) (t : DownloadedTarball) :
    upsertTarball b table t =
      if t.check b ∧ (upserted table[t.tarballUrl]? t).check b then
        some (table.insert t.tarballUrl (upserted table[t.tarballUrl]? t))
      else none := by
  rw [upsertTarball]
  by_cases ht : t.check b
  · rw [if_pos ht]
    cases hold : table[t.tarballUrl]? with
    | none => simp [upserted, ht]
    | some old => simp [upserted, ht]
  · rw [if_neg ht, if_neg fun h => ht h.1]

theorem getElem?_upsertTarball (h : upsertTarball b table t = some table') (url : String) :
    table'[url]? = if t.tarballUrl = url then some (upserted table[t.tarballUrl]? t)
      else table[url]? := by
  rw [upsertTarball_eq] at h
  split_ifs at h
  cases h
  exact FiniteMap.getElem?_insert ..

theorem getElem?_foldlM_upsertTarball (hurls : (tarballs.map (·.tarballUrl)).Nodup)
    (h : tarballs.foldlM (upsertTarball b) table = some table') :
    (∀ t ∈ tarballs, table'[t.tarballUrl]? = some (upserted table[t.tarballUrl]? t)) ∧
      ∀ url, (∀ t ∈ tarballs, t.tarballUrl ≠ url) → table'[url]? = table[url]? := by
  induction tarballs generalizing table with
  | nil =>
    cases h
    exact ⟨fun t ht => absurd ht List.not_mem_nil, fun _ _ => rfl⟩
  | cons t tarballs ih =>
    rw [List.map_cons, List.nodup_cons] at hurls
    rw [List.foldlM_cons] at h
    obtain ⟨mid, hmid, hrest⟩ := Option.bind_eq_some_iff.mp h
    obtain ⟨hrows, hothers⟩ := ih hurls.2 hrest
    have hne : ∀ t' ∈ tarballs, t'.tarballUrl ≠ t.tarballUrl := fun t' ht' heq =>
      hurls.1 (heq ▸ List.mem_map_of_mem ht')
    constructor
    · intro t' ht'
      rcases List.mem_cons.mp ht' with rfl | ht'
      · rw [hothers _ hne, getElem?_upsertTarball hmid, if_pos rfl]
      · rw [hrows t' ht', getElem?_upsertTarball hmid, if_neg (hne t' ht').symm]
    · intro url hurl
      rw [hothers url fun t' ht' => hurl t' (List.mem_cons_of_mem _ ht'),
        getElem?_upsertTarball hmid, if_neg (hurl t List.mem_cons_self)]

/-- The upsert gives each of its rows and no other the columns it sets. -/
theorem getElem?_upsertTarballs (h : upsertTarballs b table tarballs = some table') :
    (∀ t ∈ tarballs, table'[t.tarballUrl]? = some (upserted table[t.tarballUrl]? t)) ∧
      ∀ url, (∀ t ∈ tarballs, t.tarballUrl ≠ url) → table'[url]? = table[url]? := by
  rw [upsertTarballs] at h
  split_ifs at h with hurls
  exact getElem?_foldlM_upsertTarball hurls h

/-- The upsert is one that the constraints of the table allow. -/
def Accepts (b : Bool) (table : DownloadedTarballs) (tarballs : List DownloadedTarball) : Prop :=
  (tarballs.map (·.tarballUrl)).Nodup ∧
    ∀ t ∈ tarballs, t.check b ∧ (upserted table[t.tarballUrl]? t).check b

theorem isSome_foldlM_upsertTarball (hurls : (tarballs.map (·.tarballUrl)).Nodup) :
    (tarballs.foldlM (upsertTarball b) table).isSome ↔
      ∀ t ∈ tarballs, t.check b ∧ (upserted table[t.tarballUrl]? t).check b := by
  induction tarballs generalizing table with
  | nil => simp
  | cons t tarballs ih =>
    rw [List.map_cons, List.nodup_cons] at hurls
    have hne : ∀ t' ∈ tarballs, t.tarballUrl ≠ t'.tarballUrl := fun t' ht' heq =>
      hurls.1 (heq ▸ List.mem_map_of_mem ht')
    rw [List.foldlM_cons, List.forall_mem_cons]
    by_cases ht : t.check b ∧ (upserted table[t.tarballUrl]? t).check b
    · have hmid := upsertTarball_eq b table t
      rw [if_pos ht] at hmid
      rw [hmid, Option.bind_eq_bind, Option.bind_some, ih hurls.2, and_iff_right ht]
      refine forall₂_congr fun t' ht' => ?_
      rw [getElem?_upsertTarball hmid, if_neg (hne t' ht')]
    · rw [upsertTarball_eq, if_neg ht]
      simp [ht]

theorem isSome_upsertTarballs :
    (upsertTarballs b table tarballs).isSome ↔ Accepts b table tarballs := by
  rw [upsertTarballs, Accepts]
  split_ifs with hurls
  · rw [isSome_foldlM_upsertTarball hurls, and_iff_right hurls]
  · simp [hurls]

/-- The row of the URL names every location of the tarball. -/
def Records (table : DownloadedTarballs) (t : DownloadedTarball) : Prop :=
  ∃ row, table[t.tarballUrl]? = some row ∧
    (∀ path, t.tgzLocalPath = some path → row.tgzLocalPath = some path) ∧
    ∀ key, t.blobStorageKey = some key → row.blobStorageKey = some key

/-- A row that stands for the URL already has the key of the tarball, if the tarball has one. -/
def KeyAgrees (table : DownloadedTarballs) (t : DownloadedTarball) : Prop :=
  ∀ old, table[t.tarballUrl]? = some old → ∀ key, t.blobStorageKey = some key →
    old.blobStorageKey = some key

theorem records_iff_keyAgrees (h : upsertTarballs b table tarballs = some table')
    (ht : t ∈ tarballs) : Records table' t ↔ KeyAgrees table t := by
  have hrow := (getElem?_upsertTarballs h).1 t ht
  constructor
  · rintro ⟨row, hrow', _, hkey⟩ old hold key hk
    rw [hrow, hold] at hrow'
    cases hrow'
    exact hkey key hk
  · intro hagrees
    refine ⟨_, hrow, fun path hpath => ?_, fun key hk => ?_⟩
    · rw [upserted_tgzLocalPath, hpath]
    · cases hold : table[t.tarballUrl]? with
      | none => exact hk
      | some old => exact hagrees old hold key hk

/-- Every row obeys the constraints of the table. -/
def Valid (b : Bool) (table : DownloadedTarballs) : Prop :=
  ∀ (url : String) (row : DownloadedTarball), table[url]? = some row → row.check b

theorem Valid.upsertTarballs (hvalid : Valid b table)
    (h : upsertTarballs b table tarballs = some table') : Valid b table' := by
  have haccepts : Accepts b table tarballs := isSome_upsertTarballs.mp (by simp [h])
  obtain ⟨hrows, hothers⟩ := getElem?_upsertTarballs h
  intro url row hrow
  by_cases hurl : ∃ t ∈ tarballs, t.tarballUrl = url
  · obtain ⟨t, ht, rfl⟩ := hurl
    rw [hrows t ht] at hrow
    cases hrow
    exact (haccepts.2 t ht).2
  · rw [hothers url fun t ht heq => hurl ⟨t, ht, heq⟩] at hrow
    exact hvalid url row hrow

theorem Valid.setBlobStorageKey (hvalid : Valid b table) (tbUrl key : String) :
    Valid b (setBlobStorageKey table tbUrl key) := by
  intro url row hrow
  rw [getElem?_setBlobStorageKey] at hrow
  obtain ⟨old, hold, rfl⟩ := Option.map_eq_some_iff.mp hrow
  split_ifs
  · exact check_setBlobStorageKey (hvalid url old hold) key
  · exact hvalid url old hold

end NpmFollower.PostgresDb

namespace NpmFollower.Downloader

open Std PostgresDb

namespace Pipeline

variable {b : Bool} {s s' : Pipeline} {a : ℕ × Action}

/-- The queue that the step upserts. -/
def upsertBy (s : Pipeline) : ℕ × Action → Option (List DownloadedTarball)
  | (pid, .record n) =>
    match s.processes[pid]? with
    | some (.download _ d) => some (d.tarballs.take n)
    | _ => none
  | _ => none

/-- What a step does to the downloaded tarballs. -/
inductive Writes (b : Bool) (s : Pipeline) (a : ℕ × Action) : DownloadedTarballs → Prop where
  | nothing (rejected : ∀ queue, s.upsertBy a = some queue → ¬Accepts b s.tarballs queue) :
      Writes b s a s.tarballs
  | upsert {queue : List DownloadedTarball} {table : DownloadedTarballs}
      (queued : s.upsertBy a = some queue)
      (upserted : upsertTarballs b s.tarballs queue = some table) : Writes b s a table
  | key (url name : String) (transferred : a.2 = .setKey) :
      Writes b s a (setBlobStorageKey s.tarballs url name)

theorem upsertBy_eq_none (pid : ℕ) {act : Action} (h : ∀ n, act ≠ .record n) :
    s.upsertBy (pid, act) = none := by
  cases act with
  | record n => exact absurd rfl (h n)
  | _ => rfl

theorem Writes.ofOther {pid : ℕ} {act : Action} (h : ∀ n, act ≠ .record n) :
    Writes b s (pid, act) s.tarballs := by
  refine .nothing fun queue hqueue => ?_
  rw [upsertBy_eq_none pid h] at hqueue
  cases hqueue

theorem tarballs_finish (s : Pipeline) (pid : ℕ) (retryFailed : Bool) (d : Downloads)
    (now : DateTime) (i : ℕ) (task : DownloadTask) (outcome : Outcome) :
    (s.finish pid retryFailed d now i task outcome).tarballs = s.tarballs := by
  cases outcome with
  | file localPath numBytes => rfl
  | blob => rfl
  | error e =>
    rw [Pipeline.finish]
    cases updateFromError now s.tasks task e <;> rfl

theorem writes_of_step (h : s.step b a = some s') : Writes b s a s'.tarballs := by
  obtain ⟨pid, act⟩ := a
  unfold step at h
  dsimp only at h
  generalize hp : s.processes[pid]? = p at h
  unfold processStep at h
  split at h
  · split_ifs at h
    cases h
    exact .ofOther fun n => nofun
  · cases h
    exact .ofOther fun n => nofun
  · split at h <;> cases h <;> exact .ofOther fun n => nofun
  · cases h
    exact .ofOther fun n => nofun
  · cases h
    exact .ofOther fun n => nofun
  · obtain ⟨task, _, rfl⟩ := Option.map_eq_some_iff.mp h
    rw [tarballs_finish]
    exact .ofOther fun n => nofun
  next retryFailed d n =>
    have hqueue : s.upsertBy (pid, .record n) = some (d.tarballs.take n) := by
      simp only [upsertBy, hp]
    dsimp only at h
    split at h
    next tarballs htarballs =>
      cases h
      exact .upsert hqueue htarballs
    next hnone =>
      cases h
      refine .nothing fun queue hqueue' haccepts => ?_
      rw [hqueue] at hqueue'
      cases hqueue'
      simp [← isSome_upsertTarballs, hnone] at haccepts
  · cases h
    exact .ofOther fun n => nofun
  · cases h
    exact .ofOther fun n => nofun
  next url name rest =>
    cases h
    exact .key url name rfl
  · cases h
    exact .ofOther fun n => nofun
  · cases h

theorem valid_of_step (hvalid : Valid b s.tarballs) (h : s.step b a = some s') :
    Valid b s'.tarballs := by
  have hwrites := writes_of_step h
  generalize s'.tarballs = table at hwrites ⊢
  cases hwrites with
  | nothing => exact hvalid
  | upsert _ hupsert => exact hvalid.upsertTarballs hupsert
  | key url name => exact hvalid.setBlobStorageKey url name

/-- A step loses no data: every row is somewhere, a key that is set stays set and only the transfer
changes it, and what an accepted upsert has downloaded is recorded where it is. -/
structure Keeps (b : Bool) (s : Pipeline) (a : ℕ × Action) (s' : Pipeline) : Prop where
  located : ∀ (url : String) (row : DownloadedTarball), s'.tarballs[url]? = some row → row.Located
  keys : ∀ (url : String) (row : DownloadedTarball), s.tarballs[url]? = some row →
    row.blobStorageKey.isSome → ∃ row', s'.tarballs[url]? = some row' ∧
      row'.blobStorageKey.isSome ∧ (a.2 ≠ .setKey → row'.blobStorageKey = row.blobStorageKey)
  recorded : ∀ queue, s.upsertBy a = some queue → Accepts b s.tarballs queue →
    ∀ t ∈ queue, Records s'.tarballs t

/-- An upsert that the table accepts finds no row with another key than the tarball has. -/
def Agrees (b : Bool) (s : Pipeline) (a : ℕ × Action) : Prop :=
  ∀ queue, s.upsertBy a = some queue → Accepts b s.tarballs queue →
    ∀ t ∈ queue, KeyAgrees s.tarballs t

theorem keys_of_step (h : s.step b a = some s') (url : String) (row : DownloadedTarball)
    (hrow : s.tarballs[url]? = some row) (hkey : row.blobStorageKey.isSome) :
    ∃ row', s'.tarballs[url]? = some row' ∧ row'.blobStorageKey.isSome ∧
      (a.2 ≠ .setKey → row'.blobStorageKey = row.blobStorageKey) := by
  have hwrites := writes_of_step h
  generalize s'.tarballs = table at hwrites ⊢
  cases hwrites with
  | nothing => exact ⟨row, hrow, hkey, fun _ => rfl⟩
  | @upsert queue _ _ hupsert =>
    obtain ⟨hrows, hothers⟩ := getElem?_upsertTarballs hupsert
    by_cases hurl : ∃ t ∈ queue, t.tarballUrl = url
    · obtain ⟨t, ht, rfl⟩ := hurl
      have hnew := hrows t ht
      rw [hrow] at hnew
      exact ⟨_, hnew, hkey, fun _ => rfl⟩
    · rw [hothers url fun t ht heq => hurl ⟨t, ht, heq⟩]
      exact ⟨row, hrow, hkey, fun _ => rfl⟩
  | key tbUrl name htransfer =>
    rw [getElem?_setBlobStorageKey, hrow]
    refine ⟨_, rfl, ?_, fun hne => absurd htransfer hne⟩
    split_ifs
    · rfl
    · exact hkey

theorem recorded_iff_agrees (h : s.step b a = some s') :
    (∀ queue, s.upsertBy a = some queue → Accepts b s.tarballs queue →
      ∀ t ∈ queue, Records s'.tarballs t) ↔ s.Agrees b a := by
  refine forall₃_congr fun queue hqueue haccepts => forall₂_congr fun t ht => ?_
  have hwrites := writes_of_step h
  generalize s'.tarballs = table at hwrites ⊢
  cases hwrites with
  | nothing hrejected => exact absurd haccepts (hrejected queue hqueue)
  | upsert hqueue' hupsert =>
    rw [hqueue] at hqueue'
    cases hqueue'
    exact records_iff_keyAgrees hupsert ht
  | key tbUrl name htransfer =>
    obtain ⟨pid, act⟩ := a
    cases htransfer
    cases hqueue

/-- A run that starts with a table in its constraints keeps every row at a location and every key
set, and a step records what it downloads just when its upsert finds no other key. -/
theorem keeps_iff_agrees {tasks : DownloadTasks} {tarballs : DownloadedTarballs}
    (hvalid : Valid b tarballs) (hrun : Reaches b (start tasks tarballs) s)
    (h : s.step b a = some s') : Keeps b s a s' ↔ s.Agrees b a := by
  have hs : Valid b s.tarballs :=
    hrun.invariant (I := fun s => Valid b s.tarballs) hvalid fun hs _ hstep => valid_of_step hs hstep
  constructor
  · intro hkeeps
    exact (recorded_iff_agrees h).mp hkeeps.recorded
  · intro hagrees
    exact {
      located := fun url row hrow => DownloadedTarball.located_of_check (valid_of_step hs h url row hrow)
      keys := keys_of_step h
      recorded := (recorded_iff_agrees h).mpr hagrees }

/-- The first download of a tarball is recorded where it is. -/
theorem keeps_first_download :
    let task : DownloadTask :=
      ⟨"https://r/a/-/a-1.tgz", none, none, none, none, none, none, none, 0, 0, none, none⟩
    ∃ s s', Reaches true (start (ExtTreeMap.ofList [(task.url, task)]) ∅) s ∧
      s.step true (0, .record 1) = some s' ∧ Keeps true s (0, .record 1) s' := by
  intro task
  let tasks : DownloadTasks := ExtTreeMap.ofList [(task.url, task)]
  let actions : List (ℕ × Action) :=
    [(0, .startDownload false), (0, .select none), (0, .finish 0 0 (.file "/t/a-1.tgz" 1))]
  let s := (Runs.perform (step true) (start tasks ∅) actions).getD (start tasks ∅)
  have hrun : Reaches true (start tasks ∅) s :=
    Runs.reach_getD (fun _ _ _ => trivial) _ (by decide +kernel)
  obtain ⟨s', hstep⟩ : ∃ s', s.step true (0, .record 1) = some s' :=
    Option.isSome_iff_exists.mp (by decide +kernel)
  have hempty : Valid true ∅ := fun url row hrow => by simp at hrow
  refine ⟨s, s', hrun, hstep, (keeps_iff_agrees hempty hrun hstep).mpr ?_⟩
  -- there is no row yet
  intro queue _ _ t _ old hold
  have hnone : s.tarballs = ∅ := by decide +kernel
  rw [hnone] at hold
  simp at hold

/-- A tarball that was transferred under its file name and is downloaded again, to a blob under its
URL, is not recorded under its URL. -/
theorem not_keeps_second_download :
    ¬∀ (b : Bool) (tasks : DownloadTasks) (tarballs : DownloadedTarballs), Valid b tarballs →
      ∀ (s s' : Pipeline) (a : ℕ × Action), Reaches b (start tasks tarballs) s →
        s.step b a = some s' → Keeps b s a s' := by
  intro hkeeps
  let task : DownloadTask :=
    ⟨"https://r/a/-/a-1.tgz", none, none, none, none, none, none, none, 0, 0, none, none⟩
  let actions : List (ℕ × Action) :=
    [(0, .enqueueChunk [task]), (0, .filter), (0, .insert),
      (1, .startDownload false), (1, .select none), (2, .enqueueChunk [task]), (2, .filter),
      (1, .finish 0 0 (.file "/t/a-1.tgz" 1)), (1, .record 1), (1, .remove),
      (2, .insert), (3, .startTransfer "" 256), (3, .setKey),
      (4, .startDownload false), (4, .select none), (4, .finish 0 0 .blob)]
  let s := (Runs.perform (step false) (start ∅ ∅) actions).getD (start ∅ ∅)
  have hrun : Reaches false (start ∅ ∅) s :=
    Runs.reach_getD (fun _ _ _ => trivial) _ (by decide +kernel)
  let s' := (s.step false (4, .record 1)).getD s
  have hstep : s.step false (4, .record 1) = some s' := by
    obtain ⟨s₁, hs₁⟩ : ∃ s₁, s.step false (4, .record 1) = some s₁ :=
      Option.isSome_iff_exists.mp (by decide +kernel)
    simp only [s', hs₁, Option.getD_some]
  have hempty : Valid false ∅ := fun url row hrow => by simp at hrow
  have hqueue : s.upsertBy (4, .record 1) = some [.fromTaskBlob 0 task task.url none] := by
    decide +kernel
  obtain ⟨row, hrow, _, hkey⟩ := (hkeeps false ∅ ∅ hempty s s' _ hrun hstep).recorded _ hqueue
    (isSome_upsertTarballs.mp (by decide +kernel)) _ List.mem_cons_self
  have hfound : s'.tarballs[task.url]?.map (·.blobStorageKey) = some (some "a-1.tgz") := by
    decide +kernel
  have hrow' : s'.tarballs[task.url]? = some row := hrow
  rw [hrow', Option.map_some, hkey task.url rfl] at hfound
  exact absurd hfound (by decide)

end Pipeline

end NpmFollower.Downloader
