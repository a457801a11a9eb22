import NpmFollower.Library.Checkpoint
import NpmFollower.TarballTransfer.Transfer

/-! # What the saved place covers

The reader saves its place as soon as a page is in the channel. A tarball up to
that place is in flight, has been skipped for want of a file name, or has its key,
so the place is safe just when the pipeline behind it has run dry.
-/

namespace NpmFollower.TarballTransfer

open Std PostgresDb Checkpoint

def Reader.page : Reader → List DownloadedTarball
  | .send page _ _ => page
  | _ => []

/-- The URLs that the reader has passed. -/
def Reader.Passed (url : String) : Reader → Prop
  | .fetch lastUrl queuedUpTo => 0 < queuedUpTo ∧ (compare url lastUrl).isLE
  | .send _ lastUrl _ | .saveUrl lastUrl _ | .saveSeq lastUrl _ => (compare url lastUrl).isLE
  | .down | .finished => False

namespace Transfer

variable {numWorkers : ℕ} {s s' : Transfer}

/-- A page that is yet to be transferred. -/
def Handed (s : Transfer) (page : List DownloadedTarball) : Prop :=
  page = s.reader.page ∨ page ∈ s.pages ∨ ∃ id : ℕ, s.workers[id]? = some (.transfer page)

/-- A batch of keys that is yet to be written. -/
def Batched (s : Transfer) (batch : List (String × String)) : Prop :=
  (∃ id : ℕ, s.workers[id]? = some (.send batch)) ∨ batch ∈ s.updates ∨ batch = s.editing

def Pending (s : Transfer) (url : String) : Prop :=
  (∃ page, s.Handed page ∧ url ∈ page.map (·.tarballUrl)) ∨
    ∃ batch, s.Batched batch ∧ url ∈ batch.map (·.1)

def HasLocal (s : Transfer) (url : String) : Prop :=
  ∃ row, s.tarballs[url]? = some row ∧ row.tgzLocalPath.isSome

/-- The worker skips the tarball. -/
def Nameless (s : Transfer) (url : String) : Prop :=
  ∃ row, s.tarballs[url]? = some row ∧ row.tgzLocalPath.bind fileName = none

/-- The tarball has been transferred and has its key. -/
def Done (s : Transfer) (url : String) : Prop :=
  ∃ row, s.tarballs[url]? = some row ∧ ∃ key, row.blobStorageKey = some key ∧ key ∈ s.stored

/-- Every tarball with a local path up to the saved URL is transferred. -/
def CheckpointSafe (s : Transfer) : Prop :=
  ∀ last, s.tarballTransferLastUrl = some last → ∀ url, s.HasLocal url →
    (compare url last).isLE → s.Done url

/-- The tarballs with a local path, as items of a pipeline. -/
def progress (s : Transfer) : Progress String where
  passed := {url | s.HasLocal url ∧ s.reader.Passed url}
  saved := {url | s.HasLocal url ∧
    ∃ last, s.tarballTransferLastUrl = some last ∧ (compare url last).isLE}
  inFlight := {url | s.HasLocal url ∧ (s.Pending url ∨ s.Nameless url)}
  done := {url | s.Done url}

theorem checkpointSafe_iff_safe : s.CheckpointSafe ↔ Safe s.progress := by
  constructor
  · rintro h url ⟨hlocal, last, hlast, hle⟩
    exact h last hlast url hlocal hle
  · intro h last hlast url hlocal hle
    exact h ⟨hlocal, last, hlast, hle⟩

/-- A tarball as the table has it, up to its key. -/
def Copies (s : Transfer) (t : DownloadedTarball) : Prop :=
  ∃ row, s.tarballs[t.tarballUrl]? = some row ∧ row.tgzLocalPath = t.tgzLocalPath

/-- Every row stands under its URL, pages are copies of rows, and batches have stored names. -/
structure Sound (s : Transfer) : Prop where
  keyed : ∀ (url : String) (row : DownloadedTarball), s.tarballs[url]? = some row →
    row.tarballUrl = url
  copies : ∀ page, s.Handed page → ∀ t ∈ page, s.Copies t
  names : ∀ batch, s.Batched batch → ∀ entry ∈ batch, entry.2 ∈ s.stored

/-- The reader has counted what it has sent, and begins with the first tarball. -/
def Begun (s : Transfer) : Prop :=
  s.tarballTransferLastSeq ≠ some 0 ∧
    match s.reader with
    | .send _ _ queuedUpTo | .saveUrl _ queuedUpTo | .saveSeq _ queuedUpTo => 0 < queuedUpTo
    | .fetch lastUrl 0 => ∃ first, s.firstEverTb = some first ∧ s.Copies first ∧
        first.tarballUrl = lastUrl ∧ ∀ url ∈ s.tarballs, (compare lastUrl url).isLE
    | _ => True

section Moves

/-- A step that leaves the table as it is. -/
structure Moves (s s' : Transfer) : Prop where
  tarballs : s'.tarballs = s.tarballs
  stored : s.stored ⊆ s'.stored
  handed : ∀ page, s'.Handed page → s.Handed page ∨ ∀ t ∈ page, s.Copies t
  batched : ∀ batch, s'.Batched batch → s.Batched batch ∨ ∀ entry ∈ batch, entry.2 ∈ s'.stored

theorem Moves.sound (h : Moves s s') (hs : s.Sound) : s'.Sound where
  keyed url row hrow := hs.keyed url row (h.tarballs ▸ hrow)
  copies page hpage t ht := by
    rw [Copies, h.tarballs]
    rcases h.handed page hpage with hpage | hcopies
    · exact hs.copies page hpage t ht
    · exact hcopies t ht
  names batch hbatch entry hentry := by
    rcases h.batched batch hbatch with hbatch | hstored
    · exact h.stored (hs.names batch hbatch entry hentry)
    · exact hstored entry hentry

theorem Moves.hasLocal (h : Moves s s') (url : String) : s'.HasLocal url ↔ s.HasLocal url := by
  rw [HasLocal, HasLocal, h.tarballs]

theorem Moves.nameless (h : Moves s s') (url : String) : s'.Nameless url ↔ s.Nameless url := by
  rw [Nameless, Nameless, h.tarballs]

theorem Moves.done (h : Moves s s') {url : String} (hdone : s.Done url) : s'.Done url := by
  obtain ⟨row, hrow, key, hkey, hstored⟩ := hdone
  exact ⟨row, by rw [h.tarballs, hrow], key, hkey, h.stored hstored⟩

theorem Moves.advances (h : Moves s s')
    (hsaved : s'.tarballTransferLastUrl = s.tarballTransferLastUrl)
    (hpassed : ∀ url, s.HasLocal url → s'.reader.Passed url → s.reader.Passed url ∨ s'.Pending url)
    (hpending : ∀ url, s.HasLocal url → s.Pending url → s'.Pending url ∨ s.Nameless url) :
    Advances s.progress s'.progress where
  saved := by
    ext url
    simp only [progress, Set.mem_ofPred_eq, h.hasLocal, hsaved]
  done url hurl := h.done hurl
  passed := by
    rintro url ⟨hlocal, hurl⟩
    have hlocal' := (h.hasLocal url).mp hlocal
    rcases hpassed url hlocal' hurl with hurl | hurl
    · exact .inl ⟨hlocal', hurl⟩
    · exact .inr (.inl ⟨hlocal, .inl hurl⟩)
  inFlight := by
    rintro url ⟨hlocal, hurl⟩
    refine .inl ⟨(h.hasLocal url).mpr hlocal, ?_⟩
    rcases hurl with hurl | hurl
    · exact (hpending url hlocal hurl).imp_right (h.nameless url).mpr
    · exact .inr ((h.nameless url).mpr hurl)

/-- Pages and batches that only change their place stay pending. -/
theorem Moves.pending (hhanded : ∀ page, s.Handed page → s'.Handed page ∨ page = [])
    (hbatched : ∀ batch, s.Batched batch → s'.Batched batch ∨ batch = []) (url : String)
    (_ : s.HasLocal url) (h : s.Pending url) : s'.Pending url ∨ s.Nameless url := by
  left
  rcases h with ⟨page, hpage, hurl⟩ | ⟨batch, hbatch, hurl⟩
  · rcases hhanded page hpage with hpage | rfl
    · exact .inl ⟨page, hpage, hurl⟩
    · cases hurl
  · rcases hbatched batch hbatch with hbatch | rfl
    · exact .inr ⟨batch, hbatch, hurl⟩
    · cases hurl

end Moves

section Page

variable {table : DownloadedTarballs} {last url : String} {row : DownloadedTarball}

theorem mem_take_of_isLE {l : List (String × DownloadedTarball)}
    (hl : l.Pairwise fun a b => compare a.1 b.1 = .lt) {n : ℕ} {e e' : String × DownloadedTarball}
    (he : e ∈ l) (hlast : (l.take n).getLast? = some e') (hle : (compare e.1 e'.1).isLE) :
    e ∈ l.take n := by
  rw [← List.take_append_drop n l] at he hl
  rcases List.mem_append.mp he with he | he
  · exact he
  · have hlt : compare e'.1 e.1 = .lt :=
      (List.pairwise_append.mp hl).2.2 e' (List.mem_of_getLast? hlast) e he
    rw [@OrientedCmp.eq_swap _ compare _ e.1 e'.1, hlt] at hle
    cases hle

theorem copies_of_mem_query (hkeyed : ∀ (url : String) (row : DownloadedTarball),
    table[url]? = some row → row.tarballUrl = url) {limit : ℕ} {t : DownloadedTarball}
    (ht : t ∈ queryTarballsAfterUrl table last limit) : table[t.tarballUrl]? = some t := by
  obtain ⟨⟨url, row⟩, he, rfl⟩ := List.mem_map.mp (List.mem_of_mem_take ht)
  have hrow : table[url]? = some row :=
    ExtTreeMap.mem_toList_iff_getElem?_eq_some.mp (List.mem_filter.mp he).1
  rw [hkeyed url row hrow, hrow]

/-- The page has every row up to its last one. -/
theorem mem_query_of_isLE (hkeyed : ∀ (url : String) (row : DownloadedTarball),
    table[url]? = some row → row.tarballUrl = url) {limit : ℕ} {t : DownloadedTarball}
    (hlast : (queryTarballsAfterUrl table last limit).getLast? = some t)
    (hrow : table[url]? = some row) (hgt : compare last url = .lt)
    (hle : (compare url t.tarballUrl).isLE) : row ∈ queryTarballsAfterUrl table last limit := by
  rw [queryTarballsAfterUrl, ← List.map_take] at hlast ⊢
  rw [List.getLast?_map] at hlast
  obtain ⟨⟨url', row'⟩, he', rfl⟩ := Option.map_eq_some_iff.mp hlast
  have hmem' := List.mem_filter.mp (List.mem_of_mem_take (List.mem_of_getLast? he'))
  have hrow' : table[url']? = some row' := ExtTreeMap.mem_toList_iff_getElem?_eq_some.mp hmem'.1
  rw [hkeyed url' row' hrow'] at hle
  refine List.mem_map.mpr ⟨(url, row), ?_, rfl⟩
  refine mem_take_of_isLE (ExtTreeMap.ordered_keys_toList.filter _) ?_ he' hle
  exact List.mem_filter.mpr ⟨ExtTreeMap.mem_toList_iff_getElem?_eq_some.mpr hrow, by simpa using hgt⟩

theorem query_first_spec (hkeyed : ∀ (url : String) (row : DownloadedTarball),
    table[url]? = some row → row.tarballUrl = url) {first : DownloadedTarball}
    (h : queryFirstTarballByUrl table = some first) :
    table[first.tarballUrl]? = some first ∧
      ∀ url ∈ table, (compare first.tarballUrl url).isLE := by
  rw [queryFirstTarballByUrl, List.head?_map] at h
  obtain ⟨⟨url, row⟩, he, rfl⟩ := Option.map_eq_some_iff.mp h
  obtain ⟨rest, hrest⟩ := List.head?_eq_some_iff.mp he
  have hrow : table[url]? = some row :=
    ExtTreeMap.mem_toList_iff_getElem?_eq_some.mp (List.mem_of_mem_head? he)
  refine ⟨by rw [hkeyed url row hrow, hrow], fun url' hurl' => ?_⟩
  rw [hkeyed url row hrow]
  obtain ⟨row', hrow'⟩ := FiniteMap.mem_iff_getElem?.mp hurl'
  have hmem : (url', row') ∈ table.toList := ExtTreeMap.mem_toList_iff_getElem?_eq_some.mpr hrow'
  have hsorted := ExtTreeMap.ordered_keys_toList (t := table)
  rw [hrest] at hmem hsorted
  rcases List.mem_cons.mp hmem with heq | hmem
  · cases heq
    simp
  · rw [(List.pairwise_cons.mp hsorted).1 (url', row') hmem]
    rfl

end Page

section Reader

theorem resumes_run (h : s.run = some s') : Moves s s' ∧ Resumes s.progress s'.progress := by
  rw [run] at h
  split at h
  next first hreader hfirst =>
    cases h
    have hmoves : Moves s { s with
        reader := .fetch (s.queryTarballTransferLast.getD (first.tarballUrl, 0)).1
          (s.queryTarballTransferLast.getD (first.tarballUrl, 0)).2
        firstEverTb := some first } := by
      refine ⟨rfl, List.Subset.refl _, fun page hpage => ?_, fun batch hbatch => .inl hbatch⟩
      rcases hpage with rfl | hpage
      · exact .inr fun t ht => nomatch ht
      · exact .inl (.inr hpage)
    refine ⟨hmoves, ⟨rfl, fun url hurl => hurl, ?_⟩⟩
    rintro url ⟨hlocal, hcount, hle⟩
    refine ⟨hlocal, ?_⟩
    -- a number of tarballs that have been passed comes with the saved URL
    cases hlast : s.queryTarballTransferLast with
    | none => simp [hlast] at hcount
    | some last =>
      rw [hlast, Option.getD_some] at hle
      rw [queryTarballTransferLast] at hlast
      split at hlast
      next saved seq hsaved hseq =>
        cases hlast
        exact ⟨saved, hsaved, hle⟩
      · cases hlast
  · cases h

theorem resumes_crash (s : Transfer) :
    Moves s s.crash ∧ Resumes s.progress s.crash.progress := by
  refine ⟨⟨rfl, List.Subset.refl _, fun page hpage => .inr ?_, fun batch hbatch => .inr ?_⟩,
    ⟨rfl, fun url hurl => hurl, fun url hurl => hurl.2.elim⟩⟩
  · rcases hpage with rfl | hpage | ⟨id, hid⟩
    · exact fun t ht => nomatch ht
    · cases hpage
    · simp [crash] at hid
  · rcases hbatch with ⟨id, hid⟩ | hbatch | rfl
    · simp [crash] at hid
    · cases hbatch
    · exact fun entry hentry => nomatch hentry

/-- The page that `fetch` makes. -/
def nextPage (s : Transfer) (lastUrl : String) (queuedUpTo : ℕ) : Option (List DownloadedTarball) :=
  let after := queryTarballsAfterUrl s.tarballs lastUrl pageSize
  if queuedUpTo = 0 then s.firstEverTb.map fun first => first :: after else some after

theorem nextPage_copies (hs : s.Sound) (hbegun : s.Begun) {lastUrl : String} {queuedUpTo : ℕ}
    (hreader : s.reader = .fetch lastUrl queuedUpTo) {page : List DownloadedTarball}
    (hpage : s.nextPage lastUrl queuedUpTo = some page) : ∀ t ∈ page, s.Copies t := by
  have hafter : ∀ t ∈ queryTarballsAfterUrl s.tarballs lastUrl pageSize, s.Copies t :=
    fun t ht => ⟨t, copies_of_mem_query hs.keyed ht, rfl⟩
  rw [nextPage] at hpage
  split_ifs at hpage with hcount
  · subst hcount
    have hfirst := hbegun.2
    rw [hreader] at hfirst
    obtain ⟨first, hfirst, hcopies, _, _⟩ := hfirst
    rw [hfirst] at hpage
    cases hpage
    exact List.forall_mem_cons.mpr ⟨hcopies, hafter⟩
  · cases hpage
    exact hafter

/-- What lies up to the end of the page was passed before or is in the page. -/
theorem mem_nextPage (hs : s.Sound) (hbegun : s.Begun) {lastUrl url : String} {queuedUpTo : ℕ}
    (hreader : s.reader = .fetch lastUrl queuedUpTo) {page : List DownloadedTarball}
    (hpage : s.nextPage lastUrl queuedUpTo = some page) {t : DownloadedTarball}
    (hlast : page.getLast? = some t) (hlocal : s.HasLocal url)
    (hle : (compare url t.tarballUrl).isLE) :
    s.reader.Passed url ∨ url ∈ page.map (·.tarballUrl) := by
  obtain ⟨row, hrow, _⟩ := hlocal
  have hurl := hs.keyed url row hrow
  have hafter (hgt : compare lastUrl url = .lt)
      (hlast : (queryTarballsAfterUrl s.tarballs lastUrl pageSize).getLast? = some t) :
      url ∈ (queryTarballsAfterUrl s.tarballs lastUrl pageSize).map (·.tarballUrl) :=
    List.mem_map.mpr ⟨row, mem_query_of_isLE hs.keyed hlast hrow hgt hle, hurl⟩
  have hcompare : (compare url lastUrl).isLE ∨ compare lastUrl url = .lt := by
    rw [@OrientedCmp.eq_swap _ compare _ lastUrl url]
    cases compare url lastUrl <;> simp
  rw [nextPage] at hpage
  split_ifs at hpage with hcount
  · subst hcount
    have hfirst := hbegun.2
    rw [hreader] at hfirst
    obtain ⟨first, hfirst, _, rfl, hleast⟩ := hfirst
    rw [hfirst] at hpage
    cases hpage
    right
    rcases hcompare with hfirstUrl | hgt
    · -- nothing is before the first tarball
      have hge : (compare first.tarballUrl url).isLE :=
        hleast url (FiniteMap.mem_iff_getElem?.mpr ⟨row, hrow⟩)
      have heq : url = first.tarballUrl :=
        LawfulEqCmp.eq_of_compare (OrientedCmp.isLE_antisymm hfirstUrl hge)
      exact List.mem_map.mpr ⟨first, List.mem_cons_self, heq.symm⟩
    · refine List.mem_cons_of_mem _ (hafter hgt ?_)
      rw [List.getLast?_cons] at hlast
      cases hend : (queryTarballsAfterUrl s.tarballs first.tarballUrl pageSize).getLast? with
      | some t' => simpa [hend] using hlast
      | none =>
        rw [hend, Option.getD_none] at hlast
        cases hlast
        rw [@OrientedCmp.eq_swap _ compare _ url _, hgt] at hle
        cases hle
  · cases hpage
    rcases hcompare with hle' | hgt
    · left
      rw [hreader]
      exact ⟨Nat.pos_of_ne_zero hcount, hle'⟩
    · exact .inr (hafter hgt hlast)

theorem advances_fetch (hs : s.Sound) (hbegun : s.Begun) (h : s.fetch = some s') :
    Moves s s' ∧ Advances s.progress s'.progress ∧ s'.Begun := by
  rw [fetch] at h
  split at h
  next lastUrl queuedUpTo hreader =>
    obtain ⟨page, hpage, rfl⟩ := Option.map_eq_some_iff.mp h
    have hpage' : s.nextPage lastUrl queuedUpTo = some page := hpage
    have hcopies := nextPage_copies hs hbegun hreader hpage'
    have hold : s.reader.page = [] := by
      rw [hreader]
      rfl
    cases hlast : page.getLast? with
    | none =>
      have hmoves : Moves s { s with
          reader := .finished
          firstEverTb := if queuedUpTo = 0 then none else s.firstEverTb } := by
        refine ⟨rfl, List.Subset.refl _, fun page' hpage' => ?_, fun batch hbatch => .inl hbatch⟩
        rcases hpage' with rfl | hpage'
        · exact .inr fun t ht => nomatch ht
        · exact .inl (.inr hpage')
      refine ⟨hmoves, hmoves.advances rfl (fun url _ hurl => hurl.elim) ?_, hbegun.1, trivial⟩
      refine Moves.pending (fun page' hpage' => ?_) fun batch hbatch => .inl hbatch
      rcases hpage' with rfl | hpage'
      · exact .inr hold
      · exact .inl (.inr hpage')
    | some last =>
      have hmoves : Moves s { s with
          reader := .send page last.tarballUrl (queuedUpTo + page.length)
          firstEverTb := if queuedUpTo = 0 then none else s.firstEverTb } := by
        refine ⟨rfl, List.Subset.refl _, fun page' hpage' => ?_, fun batch hbatch => .inl hbatch⟩
        rcases hpage' with rfl | hpage'
        · exact .inr hcopies
        · exact .inl (.inr hpage')
      have hne : page ≠ [] := by
        rintro rfl
        cases hlast
      refine ⟨hmoves, hmoves.advances rfl (fun url hlocal hurl => ?_) ?_, hbegun.1,
        Nat.add_pos_right _ (List.length_pos_of_ne_nil hne)⟩
      · refine (mem_nextPage hs hbegun hreader hpage' hlast hlocal hurl).imp_right fun hmem => ?_
        exact .inl ⟨page, .inl rfl, hmem⟩
      · refine Moves.pending (fun page' hpage' => ?_) fun batch hbatch => .inl hbatch
        rcases hpage' with rfl | hpage'
        · exact .inr hold
        · exact .inl (.inr hpage')
  · cases h

theorem advances_send (hbegun : s.Begun) (h : s.send numWorkers = some s') :
    Moves s s' ∧ Advances s.progress s'.progress ∧ s'.Begun := by
  rw [send] at h
  split at h
  next page lastUrl queuedUpTo hreader =>
    split_ifs at h
    cases h
    have hold : s.reader.page = page := by
      rw [hreader]
      rfl
    have hcount := hbegun.2
    rw [hreader] at hcount
    have hmoves : Moves s { s with
        pages := s.pages ++ [page], reader := .saveUrl lastUrl queuedUpTo } := by
      refine ⟨rfl, List.Subset.refl _, fun page' hpage' => ?_, fun batch hbatch => .inl hbatch⟩
      rcases hpage' with rfl | hpage' | hpage'
      · exact .inr fun t ht => nomatch ht
      · rcases List.mem_append.mp hpage' with hpage' | hpage'
        · exact .inl (.inr (.inl hpage'))
        · exact .inl (.inl ((List.mem_singleton.mp hpage').trans hold.symm))
      · exact .inl (.inr (.inr hpage'))
    refine ⟨hmoves, hmoves.advances rfl (fun url _ hurl => .inl ?_) ?_, hbegun.1, hcount⟩
    · rw [hreader]
      exact hurl
    · refine Moves.pending (fun page' hpage' => .inl ?_) fun batch hbatch => .inl hbatch
      rcases hpage' with rfl | hpage' | hpage'
      · exact .inr (.inl (List.mem_append_right _ (List.mem_singleton.mpr hold)))
      · exact .inr (.inl (List.mem_append_left _ hpage'))
      · exact .inr (.inr hpage')
  · cases h

theorem save_saveUrl (hbegun : s.Begun) (h : s.saveUrl = some s') :
    Moves s s' ∧ s'.progress = s.progress.save ∧ s'.Begun := by
  rw [saveUrl] at h
  split at h
  next lastUrl queuedUpTo hreader =>
    cases h
    have hold : s.reader.page = [] := by
      rw [hreader]
      rfl
    have hcount := hbegun.2
    rw [hreader] at hcount
    refine ⟨⟨rfl, List.Subset.refl _, fun page hpage => ?_, fun batch hbatch => .inl hbatch⟩, ?_, hbegun.1, hcount⟩
    · rcases hpage with rfl | hpage
      · exact .inl (.inl hold.symm)
      · exact .inl (.inr hpage)
    · simp only [progress, Progress.save, Progress.mk.injEq]
      refine ⟨?_, ?_, ?_, rfl⟩
      · rw [hreader]
        rfl
      · rw [hreader]
        simp only [Option.some.injEq, exists_eq_left']
        rfl
      · have hpage : s.reader.page = Reader.page (.saveSeq lastUrl queuedUpTo) := hold
        simp only [Pending, Handed, hpage]
        rfl
  · cases h

theorem advances_saveSeq (hbegun : s.Begun) (h : s.saveSeq = some s') :
    Moves s s' ∧ Advances s.progress s'.progress ∧ s'.Begun := by
  rw [saveSeq] at h
  split at h
  next lastUrl queuedUpTo hreader =>
    cases h
    have hold : s.reader.page = [] := by
      rw [hreader]
      rfl
    have hcount := hbegun.2
    rw [hreader] at hcount
    have hne : queuedUpTo ≠ 0 := Nat.pos_iff_ne_zero.mp hcount
    have hmoves : Moves s { s with
        tarballTransferLastSeq := some queuedUpTo, reader := .fetch lastUrl queuedUpTo } := by
      refine ⟨rfl, List.Subset.refl _, fun page hpage => .inl ?_, fun batch hbatch => .inl hbatch⟩
      rcases hpage with rfl | hpage
      · exact .inl hold.symm
      · exact .inr hpage
    refine ⟨hmoves, hmoves.advances rfl (fun url _ hurl => .inl ?_) ?_, by simpa using hne, ?_⟩
    · rw [hreader]
      exact hurl.2
    · refine Moves.pending (fun page hpage => .inl ?_) fun batch hbatch => .inl hbatch
      rcases hpage with rfl | hpage
      · exact .inl hold
      · exact .inr hpage
    · dsimp only
      split
      next heq => cases heq
      next heq => cases heq
      next heq => cases heq
      next heq =>
        cases heq
        exact absurd rfl hne
      · trivial
  · cases h

end Reader

section Workers

theorem begun_of_eq (hbegun : s.Begun) (htarballs : s'.tarballs = s.tarballs)
    (hseq : s'.tarballTransferLastSeq = s.tarballTransferLastSeq) (hreader : s'.reader = s.reader)
    (hfirst : s'.firstEverTb = s.firstEverTb) : s'.Begun := by
  simp only [Begun, Copies, htarballs, hseq, hreader, hfirst]
  exact hbegun

theorem advances_take {id : ℕ} (hbegun : s.Begun) (h : s.take numWorkers id = some s') :
    Moves s s' ∧ Advances s.progress s'.progress ∧ s'.Begun := by
  rw [take] at h
  split at h
  next page rest hworker hpages =>
    split_ifs at h
    cases h
    have hmoves : Moves s { s with
        pages := rest, workers := s.workers.insert id (.transfer page) } := by
      refine ⟨rfl, List.Subset.refl _, fun page' hpage' => .inl ?_, fun batch hbatch => .inl ?_⟩
      · rcases hpage' with rfl | hpage' | ⟨j, hj⟩
        · exact .inl rfl
        · exact .inr (.inl (hpages ▸ List.mem_cons_of_mem _ hpage'))
        · rw [FiniteMap.getElem?_insert] at hj
          split_ifs at hj
          · cases hj
            exact .inr (.inl (hpages ▸ List.mem_cons_self))
          · exact .inr (.inr ⟨j, hj⟩)
      · rcases hbatch with ⟨j, hj⟩ | hbatch
        · rw [FiniteMap.getElem?_insert] at hj
          split_ifs at hj
          · cases hj
          · exact .inl ⟨j, hj⟩
        · exact .inr hbatch
    refine ⟨hmoves, hmoves.advances rfl (fun url _ hurl => .inl hurl) ?_,
      begun_of_eq hbegun rfl rfl rfl rfl⟩
    refine Moves.pending (fun page' hpage' => .inl ?_) fun batch hbatch => .inl ?_
    · rcases hpage' with rfl | hpage' | ⟨j, hj⟩
      · exact .inl rfl
      · rcases List.mem_cons.mp (hpages ▸ hpage') with rfl | hpage'
        · exact .inr (.inr ⟨id, by simp⟩)
        · exact .inr (.inl hpage')
      · have hne : id ≠ j := by
          rintro rfl
          simp [hworker] at hj
        exact .inr (.inr ⟨j, by rw [FiniteMap.getElem?_insert_of_ne _ _ hne, hj]⟩)
    · rcases hbatch with ⟨j, hj⟩ | hbatch
      · have hne : id ≠ j := by
          rintro rfl
          simp [hworker] at hj
        exact .inl ⟨j, by rw [FiniteMap.getElem?_insert_of_ne _ _ hne, hj]⟩
      · exact .inr hbatch
  · cases h

theorem advances_retry {id n : ℕ} (hbegun : s.Begun) (h : s.retry id n = some s') :
    Moves s s' ∧ Advances s.progress s'.progress ∧ s'.Begun := by
  rw [retry] at h
  split at h
  next page hworker =>
    cases h
    have hmoves : Moves s { s with
        stored := s.stored ++ ((processedTarballs page).take n).map (·.2) } :=
      ⟨rfl, List.subset_append_left _ _, fun page hpage => .inl hpage, fun batch hbatch => .inl hbatch⟩
    exact ⟨hmoves, hmoves.advances rfl (fun url _ hurl => .inl hurl) fun url _ hurl => .inl hurl,
      begun_of_eq hbegun rfl rfl rfl rfl⟩
  · cases h

/-- A tarball of the page is processed or has no file name. -/
theorem processed_or_nameless {page : List DownloadedTarball} {url : String}
    (hcopies : ∀ t ∈ page, s.Copies t) (h : url ∈ page.map (·.tarballUrl)) :
    url ∈ (processedTarballs page).map (·.1) ∨ s.Nameless url := by
  obtain ⟨t, ht, rfl⟩ := List.mem_map.mp h
  obtain ⟨row, hrow, hpath⟩ := hcopies t ht
  cases hname : t.tgzLocalPath.bind fileName with
  | none => exact .inr ⟨row, hrow, by rw [hpath, hname]⟩
  | some name =>
    refine .inl (List.mem_map.mpr ⟨(t.tarballUrl, name), ?_, rfl⟩)
    exact List.mem_filterMap.mpr ⟨t, ht, by rw [hname, Option.map_some]⟩

theorem advances_transfer {id : ℕ} (hs : s.Sound) (hbegun : s.Begun)
    (h : s.transfer id = some s') :
    Moves s s' ∧ Advances s.progress s'.progress ∧ s'.Begun := by
  rw [transfer] at h
  split at h
  next page hworker =>
    cases h
    have hmoves : Moves s { s with
        stored := s.stored ++ (processedTarballs page).map (·.2)
        workers := s.workers.insert id (.send (processedTarballs page)) } := by
      refine ⟨rfl, List.subset_append_left _ _, fun page' hpage' => .inl ?_, fun batch hbatch => ?_⟩
      · rcases hpage' with rfl | hpage' | ⟨j, hj⟩
        · exact .inl rfl
        · exact .inr (.inl hpage')
        · rw [FiniteMap.getElem?_insert] at hj
          split_ifs at hj
          · cases hj
          · exact .inr (.inr ⟨j, hj⟩)
      · rcases hbatch with ⟨j, hj⟩ | hbatch
        · rw [FiniteMap.getElem?_insert] at hj
          split_ifs at hj
          · cases hj
            exact .inr fun entry hentry => List.mem_append_right _ (List.mem_map_of_mem hentry)
          · exact .inl (.inl ⟨j, hj⟩)
        · exact .inl (.inr hbatch)
    refine ⟨hmoves, hmoves.advances rfl (fun url _ hurl => .inl hurl) fun url hlocal hurl => ?_,
      begun_of_eq hbegun rfl rfl rfl rfl⟩
    rcases hurl with ⟨page', hpage', hurl⟩ | ⟨batch, hbatch, hurl⟩
    · rcases hpage' with rfl | hpage' | ⟨j, hj⟩
      · exact .inl (.inl ⟨_, .inl rfl, hurl⟩)
      · exact .inl (.inl ⟨page', .inr (.inl hpage'), hurl⟩)
      · by_cases hne : id = j
        · subst hne
          rw [hworker] at hj
          cases hj
          refine (processed_or_nameless (hs.copies page (.inr (.inr ⟨id, hworker⟩))) hurl).imp_left ?_
          exact fun hurl => .inr ⟨_, .inl ⟨id, by simp⟩, hurl⟩
        · refine .inl (.inl ⟨page', .inr (.inr ⟨j, ?_⟩), hurl⟩)
          rw [FiniteMap.getElem?_insert_of_ne _ _ hne, hj]
    · rcases hbatch with ⟨j, hj⟩ | hbatch
      · have hne : id ≠ j := by
          rintro rfl
          simp [hworker] at hj
        refine .inl (.inr ⟨batch, .inl ⟨j, ?_⟩, hurl⟩)
        rw [FiniteMap.getElem?_insert_of_ne _ _ hne, hj]
      · exact .inl (.inr ⟨batch, .inr hbatch, hurl⟩)
  · cases h

theorem advances_pass {id : ℕ} (hbegun : s.Begun) (h : s.pass numWorkers id = some s') :
    Moves s s' ∧ Advances s.progress s'.progress ∧ s'.Begun := by
  rw [pass] at h
  split at h
  next processed hworker =>
    split_ifs at h
    cases h
    have hmoves : Moves s { s with
        updates := s.updates ++ [processed], workers := s.workers.erase id } := by
      refine ⟨rfl, List.Subset.refl _, fun page hpage => .inl ?_, fun batch hbatch => .inl ?_⟩
      · rcases hpage with rfl | hpage | ⟨j, hj⟩
        · exact .inl rfl
        · exact .inr (.inl hpage)
        · rw [FiniteMap.getElem?_erase] at hj
          split_ifs at hj
          exact .inr (.inr ⟨j, hj⟩)
      · rcases hbatch with ⟨j, hj⟩ | hbatch | hbatch
        · rw [FiniteMap.getElem?_erase] at hj
          split_ifs at hj
          exact .inl ⟨j, hj⟩
        · rcases List.mem_append.mp hbatch with hbatch | hbatch
          · exact .inr (.inl hbatch)
          · rw [List.mem_singleton.mp hbatch]
            exact .inl ⟨id, hworker⟩
        · exact .inr (.inr hbatch)
    refine ⟨hmoves, hmoves.advances rfl (fun url _ hurl => .inl hurl) ?_,
      begun_of_eq hbegun rfl rfl rfl rfl⟩
    refine Moves.pending (fun page hpage => .inl ?_) fun batch hbatch => .inl ?_
    · rcases hpage with rfl | hpage | ⟨j, hj⟩
      · exact .inl rfl
      · exact .inr (.inl hpage)
      · have hne : id ≠ j := by
          rintro rfl
          simp [hworker] at hj
        exact .inr (.inr ⟨j, by rw [FiniteMap.getElem?_erase, if_neg hne, hj]⟩)
    · rcases hbatch with ⟨j, hj⟩ | hbatch | hbatch
      · by_cases hne : id = j
        · subst hne
          rw [hworker] at hj
          cases hj
          exact .inr (.inl (List.mem_append_right _ (List.mem_singleton_self _)))
        · exact .inl ⟨j, by rw [FiniteMap.getElem?_erase, if_neg hne, hj]⟩
      · exact .inr (.inl (List.mem_append_left _ hbatch))
      · exact .inr (.inr hbatch)
  · cases h

theorem advances_receive (hbegun : s.Begun) (h : s.receive = some s') :
    Moves s s' ∧ Advances s.progress s'.progress ∧ s'.Begun := by
  rw [receive] at h
  split at h
  next batch rest hediting hupdates =>
    cases h
    have hmoves : Moves s { s with updates := rest, editing := batch } := by
      refine ⟨rfl, List.Subset.refl _, fun page hpage => .inl hpage, fun batch' hbatch' => .inl ?_⟩
      rcases hbatch' with hbatch' | hbatch' | rfl
      · exact .inl hbatch'
      · exact .inr (.inl (hupdates ▸ List.mem_cons_of_mem _ hbatch'))
      · exact .inr (.inl (hupdates ▸ List.mem_cons_self))
    refine ⟨hmoves, hmoves.advances rfl (fun url _ hurl => .inl hurl) ?_,
      begun_of_eq hbegun rfl rfl rfl rfl⟩
    refine Moves.pending (fun page hpage => .inl hpage) fun batch' hbatch' => ?_
    rcases hbatch' with hbatch' | hbatch' | rfl
    · exact .inl (.inl hbatch')
    · rcases List.mem_cons.mp (hupdates ▸ hbatch') with rfl | hbatch'
      · exact .inl (.inr (.inr rfl))
      · exact .inl (.inr (.inl hbatch'))
    · exact .inr hediting
  · cases h

end Workers

section SetKey

variable {url name : String} {rest : List (String × String)}

theorem getElem?_setKey {u : String} {row : DownloadedTarball} (hrow : s.tarballs[u]? = some row) :
    (setBlobStorageKey s.tarballs url name)[u]? =
      some (if url = u then { row with blobStorageKey := some name } else row) := by
  rw [getElem?_setBlobStorageKey, hrow, Option.map_some]

theorem exists_of_getElem?_setKey {u : String} {row : DownloadedTarball}
    (hrow : (setBlobStorageKey s.tarballs url name)[u]? = some row) :
    ∃ old, s.tarballs[u]? = some old ∧ old.tarballUrl = row.tarballUrl ∧
      old.tgzLocalPath = row.tgzLocalPath := by
  rw [getElem?_setBlobStorageKey] at hrow
  obtain ⟨old, hold, rfl⟩ := Option.map_eq_some_iff.mp hrow
  refine ⟨old, hold, ?_⟩
  split_ifs <;> exact ⟨rfl, rfl⟩

theorem copies_setKey (hreader : s'.tarballs = setBlobStorageKey s.tarballs url name)
    {t : DownloadedTarball} (h : s.Copies t) : s'.Copies t := by
  obtain ⟨row, hrow, hpath⟩ := h
  refine ⟨_, by rw [hreader, getElem?_setKey hrow], ?_⟩
  split_ifs <;> exact hpath

theorem advances_setKey (hs : s.Sound) (hbegun : s.Begun) (h : s.setKey = some s') :
    s'.Sound ∧ Advances s.progress s'.progress ∧ s'.Begun := by
  rw [setKey] at h
  split at h
  next url name rest hediting =>
    cases h
    have hname : name ∈ s.stored :=
      hs.names s.editing (.inr (.inr rfl)) (url, name) (hediting ▸ List.mem_cons_self)
    have hlocal : ∀ u, HasLocal { s with
        tarballs := setBlobStorageKey s.tarballs url name, editing := rest } u ↔ s.HasLocal u := by
      intro u
      constructor
      · rintro ⟨row, hrow, hpath⟩
        obtain ⟨old, hold, _, hold'⟩ := exists_of_getElem?_setKey hrow
        exact ⟨old, hold, hold' ▸ hpath⟩
      · rintro ⟨row, hrow, hpath⟩
        refine ⟨_, getElem?_setKey hrow, ?_⟩
        split_ifs <;> exact hpath
    refine ⟨⟨fun u row hrow => ?_, fun page hpage t ht => ?_, fun batch hbatch entry hentry => ?_⟩,
      ⟨?_, ?_, ?_, ?_⟩, hbegun.1, ?_⟩
    · obtain ⟨old, hold, hurl, _⟩ := exists_of_getElem?_setKey hrow
      exact hurl.symm.trans (hs.keyed u old hold)
    · exact copies_setKey rfl (hs.copies page hpage t ht)
    · rcases hbatch with hbatch | hbatch | rfl
      · exact hs.names batch (.inl hbatch) entry hentry
      · exact hs.names batch (.inr (.inl hbatch)) entry hentry
      · refine hs.names s.editing (.inr (.inr rfl)) entry ?_
        rw [hediting]
        exact List.mem_cons_of_mem _ hentry
    · ext u
      simp only [progress, Set.mem_ofPred_eq, hlocal]
    · rintro u ⟨row, hrow, key, hkey, hstored⟩
      refine ⟨_, getElem?_setKey hrow, ?_⟩
      split_ifs
      · exact ⟨name, rfl, hname⟩
      · exact ⟨key, hkey, hstored⟩
    · rintro u ⟨hu, hpassed⟩
      exact .inl ⟨(hlocal u).mp hu, hpassed⟩
    · rintro u ⟨hu, hflight⟩
      have hrow := hu
      obtain ⟨row, hrow, _⟩ := hrow
      rcases hflight with (⟨page, hpage, hmem⟩ | ⟨batch, hbatch, hmem⟩) | ⟨row', hrow', hnone⟩
      · exact .inl ⟨(hlocal u).mpr hu, .inl (.inl ⟨page, hpage, hmem⟩)⟩
      · rcases hbatch with hbatch | hbatch | rfl
        · exact .inl ⟨(hlocal u).mpr hu, .inl (.inr ⟨batch, .inl hbatch, hmem⟩)⟩
        · exact .inl ⟨(hlocal u).mpr hu, .inl (.inr ⟨batch, .inr (.inl hbatch), hmem⟩)⟩
        · rw [hediting, List.map_cons] at hmem
          rcases List.mem_cons.mp hmem with rfl | hmem
          · -- the key that has just been written
            refine .inr ⟨_, getElem?_setKey hrow, name, ?_, hname⟩
            rw [if_pos rfl]
          · exact .inl ⟨(hlocal u).mpr hu, .inl (.inr ⟨rest, .inr (.inr rfl), hmem⟩)⟩
      · refine .inl ⟨(hlocal u).mpr hu, .inr ⟨_, getElem?_setKey hrow', ?_⟩⟩
        split_ifs <;> exact hnone
    · have hfirst := hbegun.2
      dsimp only
      split at hfirst
      · exact hfirst
      · exact hfirst
      · exact hfirst
      · obtain ⟨first, hfirst, hcopies, hurl, hleast⟩ := hfirst
        refine ⟨first, hfirst, copies_setKey rfl hcopies, hurl, fun u hu => hleast u ?_⟩
        rw [ExtTreeMap.mem_iff_isSome_getElem?, getElem?_setBlobStorageKey, Option.isSome_map] at hu
        exact ExtTreeMap.mem_iff_isSome_getElem?.mpr hu
      · trivial
  · cases h

end SetKey

section Runs

/-- Everything that holds as long as each save finds the pipeline drained. -/
structure Inv (s : Transfer) : Prop where
  sound : s.Sound
  begun : s.Begun
  covered : Covered s.progress
  safe : Safe s.progress

/-- When the URL is saved, no tarball up to it is in flight or has been skipped that has a local
path and is not transferred yet. -/
def SavesDrained (s : Transfer) (a : Action) : Prop := a = .saveUrl → Drained s.progress

theorem Inv.advance (hinv : s.Inv)
    (h : Moves s s' ∧ Advances s.progress s'.progress ∧ s'.Begun) : s'.Inv :=
  ⟨h.1.sound hinv.sound, h.2.2, h.2.1.covered hinv.covered, h.2.1.safe hinv.safe⟩

theorem begun_run (hs : s.Sound) (hbegun : s.Begun) (h : s.run = some s') : s'.Begun := by
  rw [run] at h
  split at h
  next first hreader hfirst =>
    cases h
    obtain ⟨hrow, hleast⟩ := query_first_spec hs.keyed hfirst
    refine ⟨hbegun.1, ?_⟩
    dsimp only
    cases hlast : s.queryTarballTransferLast with
    | none => exact ⟨first, rfl, ⟨first, hrow, rfl⟩, rfl, hleast⟩
    | some last =>
      rw [queryTarballTransferLast] at hlast
      split at hlast
      next url seq _ hseq =>
        cases hlast
        rw [Option.getD_some]
        cases seq with
        | zero => exact absurd hseq hbegun.1
        | succ n => trivial
      · cases hlast
  · cases h

theorem Inv.step {a : Action} (hinv : s.Inv) (hdrained : s.SavesDrained a)
    (h : s.step numWorkers a = some s') : s'.Inv := by
  cases a with
  | run =>
    obtain ⟨hmoves, hresumes⟩ := resumes_run h
    exact ⟨hmoves.sound hinv.sound, begun_run hinv.sound hinv.begun h, hresumes.covered hinv.safe,
      hresumes.safe hinv.safe⟩
  | fetch => exact hinv.advance (advances_fetch hinv.sound hinv.begun h)
  | send => exact hinv.advance (advances_send hinv.begun h)
  | saveUrl =>
    obtain ⟨hmoves, hsave, hbegun⟩ := save_saveUrl hinv.begun h
    refine ⟨hmoves.sound hinv.sound, hbegun, ?_, ?_⟩
    · rw [hsave]
      exact hinv.covered
    · rw [hsave, safe_save_iff hinv.covered]
      exact hdrained rfl
  | saveSeq => exact hinv.advance (advances_saveSeq hinv.begun h)
  | take id => exact hinv.advance (advances_take hinv.begun h)
  | retry id n => exact hinv.advance (advances_retry hinv.begun h)
  | transfer id => exact hinv.advance (advances_transfer hinv.sound hinv.begun h)
  | pass id => exact hinv.advance (advances_pass hinv.begun h)
  | receive => exact hinv.advance (advances_receive hinv.begun h)
  | setKey =>
    obtain ⟨hsound, hadvances, hbegun⟩ := advances_setKey hinv.sound hinv.begun h
    exact ⟨hsound, hbegun, hadvances.covered hinv.covered, hadvances.safe hinv.safe⟩
  | crash =>
    cases h
    obtain ⟨hmoves, hresumes⟩ := resumes_crash s
    exact ⟨hmoves.sound hinv.sound, ⟨hinv.begun.1, trivial⟩, hresumes.covered hinv.safe,
      hresumes.safe hinv.safe⟩

theorem inv_start {tarballs : DownloadedTarballs} (hkeyed : ∀ (url : String)
    (row : DownloadedTarball), tarballs[url]? = some row → row.tarballUrl = url) :
    (start tarballs).Inv where
  sound := by
    refine ⟨hkeyed, fun page hpage t ht => ?_, fun batch hbatch entry hentry => ?_⟩
    · rcases hpage with rfl | hpage | ⟨id, hid⟩
      · cases ht
      · cases hpage
      · simp [start] at hid
    · rcases hbatch with ⟨id, hid⟩ | hbatch | rfl
      · simp [start] at hid
      · cases hbatch
      · cases hentry
  begun := ⟨nofun, trivial⟩
  covered := fun url hurl => hurl.2.elim
  safe := by
    rintro url ⟨_, last, hlast, _⟩
    cases hlast

/-- While every save so far has found the pipeline drained, the saved URL is a safe place to start
from, and it stays one in the next step just when a save there finds the pipeline drained too. -/
theorem checkpointSafe_iff_savesDrained {tarballs : DownloadedTarballs} {a : Action}
    (hkeyed : ∀ (url : String) (row : DownloadedTarball), tarballs[url]? = some row →
      row.tarballUrl = url)
    (hrun : Runs.Reach (Transfer.step numWorkers) SavesDrained (start tarballs) s)
    (h : s.step numWorkers a = some s') :
    s.CheckpointSafe ∧ (s'.CheckpointSafe ↔ s.SavesDrained a) := by
  have hinv : s.Inv := hrun.invariant (inv_start hkeyed) fun hinv hdrained hstep =>
    hinv.step hdrained hstep
  refine ⟨checkpointSafe_iff_safe.mpr hinv.safe, ?_⟩
  constructor
  · rintro hsafe rfl
    obtain ⟨_, hsave, _⟩ := save_saveUrl hinv.begun h
    rw [checkpointSafe_iff_safe, hsave, safe_save_iff hinv.covered] at hsafe
    exact hsafe
  · intro hdrained
    exact checkpointSafe_iff_safe.mpr (hinv.step hdrained h).safe

/-- A page that is written back before its place is saved leaves the place safe. -/
theorem checkpointSafe_drained_page :
    let row : DownloadedTarball := ⟨"https://r/a/-/a-1.tgz", 0, none, none, none, none, none, none,
      none, some "/t/a-1.tgz", none, some 1⟩
    ∃ s s', Runs.Reach (Transfer.step 1) SavesDrained
        (start (ExtTreeMap.insert ∅ row.tarballUrl row)) s ∧
      s.step 1 .saveUrl = some s' ∧ s'.CheckpointSafe := by
  intro row
  let table : DownloadedTarballs := ExtTreeMap.insert ∅ row.tarballUrl row
  let actions : List Action := [.run, .fetch, .send, .take 0, .transfer 0, .pass 0, .receive, .setKey]
  let s := (Runs.perform (Transfer.step 1) (start table) actions).getD (start table)
  have hkeyed (url : String) (row' : DownloadedTarball) (h : table[url]? = some row') :
      row'.tarballUrl = url := by
    rw [FiniteMap.getElem?_insert] at h
    split_ifs at h with hurl
    · cases h
      exact hurl
    · simp at h
  have hrun : Runs.Reach (Transfer.step 1) SavesDrained (start table) s := by
    refine Runs.reach_getD (fun a ha s' => ?_) _ (by decide +kernel)
    rintro rfl
    simp [actions] at ha
  obtain ⟨s', hstep⟩ : ∃ s', s.step 1 .saveUrl = some s' :=
    Option.isSome_iff_exists.mp (by decide +kernel)
  refine ⟨s, s', hrun, hstep, ((checkpointSafe_iff_savesDrained hkeyed hrun hstep).2).mpr ?_⟩
  -- the one row has its key
  rintro - url ⟨⟨⟨row', hrow', _⟩, _⟩, _⟩
  have htable : s.tarballs = ExtTreeMap.insert ∅ row.tarballUrl
      { row with blobStorageKey := some "a-1.tgz" } := by decide +kernel
  have hstored : "a-1.tgz" ∈ s.stored := by decide +kernel
  refine ⟨row', hrow', "a-1.tgz", ?_, hstored⟩
  rw [htable, FiniteMap.getElem?_insert] at hrow'
  split_ifs at hrow'
  · cases hrow'
    rfl
  · simp at hrow'

/-- The place is saved as soon as the page is in the channel. -/
theorem not_checkpointSafe_page_in_channel :
    ¬∀ (numWorkers : ℕ) (tarballs : DownloadedTarballs), (∀ (url : String)
      (row : DownloadedTarball), tarballs[url]? = some row → row.tarballUrl = url) →
      ∀ s : Transfer, Runs.Reach (Transfer.step numWorkers) (fun _ _ => True) (start tarballs) s →
        s.CheckpointSafe := by
  intro hsafe
  let row : DownloadedTarball := ⟨"https://r/a/-/a-1.tgz", 0, none, none, none, none, none, none,
    none, some "/t/a-1.tgz", none, some 1⟩
  let table : DownloadedTarballs := ExtTreeMap.insert ∅ row.tarballUrl row
  let actions : List Action := [.run, .fetch, .send, .saveUrl]
  let s := (Runs.perform (Transfer.step 1) (start table) actions).getD (start table)
  have hkeyed (url : String) (row' : DownloadedTarball) (h : table[url]? = some row') :
      row'.tarballUrl = url := by
    rw [FiniteMap.getElem?_insert] at h
    split_ifs at h with hurl
    · cases h
      exact hurl
    · simp at h
  have hrun : Runs.Reach (Transfer.step 1) (fun _ _ => True) (start table) s :=
    Runs.reach_getD (fun _ _ _ => trivial) _ (by decide +kernel)
  have hrow : s.tarballs[row.tarballUrl]? = some row := by decide +kernel
  obtain ⟨row', hrow', key, hkey, _⟩ := hsafe 1 table hkeyed s hrun row.tarballUrl
    (by decide +kernel) row.tarballUrl ⟨row, hrow, rfl⟩ (by decide +kernel)
  rw [hrow] at hrow'
  cases hrow'
  cases hkey

end Runs

end Transfer

end NpmFollower.TarballTransfer
