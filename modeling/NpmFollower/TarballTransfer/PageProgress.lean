import NpmFollower.TarballTransfer.PageTransfer

/-! # When a page is handled

Files that are stored leave the list one name at a time, and the list may run
empty. What is left when none of them is stored goes into the store, but a name
that occurs twice is removed twice, and the page begins again with all its files
stored.
-/

namespace NpmFollower.TarballTransfer

open PostgresDb

namespace PageWorker

variable {rsync : List String → Bool} {page : List DownloadedTarball} {w w' w'' : PageWorker}

/-- Some number of steps leads from one state to the other. -/
def Leads (rsync : List String → Bool) (page : List DownloadedTarball) (w w' : PageWorker) : Prop :=
  ∃ n, (step rsync page)^[n] w = w'

theorem Leads.refl (w : PageWorker) : Leads rsync page w w := ⟨0, rfl⟩

theorem Leads.of_step (h : w.step rsync page = w') : Leads rsync page w w' := ⟨1, h⟩

theorem Leads.trans (h : Leads rsync page w w') (h' : Leads rsync page w' w'') :
    Leads rsync page w w'' := by
  obtain ⟨n, rfl⟩ := h
  obtain ⟨n', rfl⟩ := h'
  exact ⟨n' + n, Function.iterate_add_apply _ _ _ _⟩

theorem step_done (h : w.phase = .done) : w.step rsync page = w := by
  rw [step, h]

theorem iterate_done (h : w.phase = .done) (n : ℕ) : (step rsync page)^[n] w = w := by
  induction n with
  | zero => rfl
  | succ n ih => rw [Function.iterate_succ_apply, step_done h, ih]

theorem submissions_step (files : List String) (h : files ∈ w.submissions) :
    files ∈ (w.step rsync page).submissions := by
  rw [step]
  split
  · rw [pass]
    dsimp only
    split_ifs <;> exact h
  · exact List.mem_append_left _ h
  · exact h

variable (rsync page) in
theorem submissions_iterate (files : List String) (h : files ∈ w.submissions) (n : ℕ) :
    files ∈ ((step rsync page)^[n] w).submissions := by
  induction n generalizing w with
  | zero => exact h
  | succ n ih =>
    rw [Function.iterate_succ_apply]
    exact ih (submissions_step files h)

/-- A page that is submitted empty once is not handled. -/
theorem not_handles_of_empty (h : Leads rsync page w w') (hempty : [] ∈ w'.submissions) :
    ¬ w.Handles rsync page := by
  rintro ⟨n, hdone, hnot, -⟩
  obtain ⟨m, rfl⟩ := h
  apply hnot
  have hlater := submissions_iterate rsync page [] hempty n
  rw [← Function.iterate_add_apply, Nat.add_comm, Function.iterate_add_apply,
    iterate_done hdone] at hlater
  exact hlater

/-- A state from which the page is handled, without an empty list so far. -/
theorem handles_of_leads (h : Leads rsync page w w') (hdone : w'.phase = .done)
    (hne : [] ∉ w'.submissions) (hstored : ∀ file ∈ pageFiles page, file ∈ w'.cluster.stored) :
    w.Handles rsync page := by
  obtain ⟨n, rfl⟩ := h
  refine ⟨n, hdone, hne, ?_⟩
  intro t ht name hname
  apply hstored
  rw [pageFiles, List.mem_map]
  refine ⟨(t.tarballUrl, name), ?_, rfl⟩
  rw [processedTarballs, List.mem_filterMap]
  exact ⟨t, ht, by rw [hname]; rfl⟩

/-! ## Submissions -/

variable {c : Cluster} {files : List String} {log : List (List String)}

theorem step_submit : (⟨c, .submit files, log⟩ : PageWorker).step rsync page =
    ⟨(c.storeFromLocal files).2, answered files (c.storeFromLocal files).1, log ++ [files]⟩ :=
  rfl

variable (rsync page log) in
theorem step_submit_exists (hremote : ∀ file ∈ files, file ∈ c.remote) {key : String}
    (hfind : files.eraseDups.find? (· ∈ c.stored) = some key) (hlen : files.length ≠ 1) :
    (⟨c, .submit files, log⟩ : PageWorker).step rsync page =
      ⟨c, .submit (files.filter (· ≠ key)), log ++ [files]⟩ := by
  rw [step_submit, storeFromLocal_exists hremote hfind]
  simp only [answered, if_neg hlen]

theorem find?_eraseDups_head {file : String} (rest : List String) (h : file ∈ c.stored) :
    (file :: rest).eraseDups.find? (· ∈ c.stored) = some file := by
  rw [List.eraseDups_cons, List.find?_cons_of_pos]
  simpa using h

theorem endsSingle_cons {file : String} {rest : List String} (hrest : rest.filter (· ≠ file) ≠ []) :
    EndsSingle (file :: rest) ↔ EndsSingle (rest.filter (· ≠ file)) := by
  have hdups : (file :: rest).eraseDups = file :: (rest.filter (· ≠ file)).eraseDups := by
    rw [List.eraseDups_cons]
    congr 2
    apply List.filter_congr
    intro x _
    by_cases hx : x = file <;> simp [hx]
  have hne : (rest.filter (· ≠ file)).eraseDups ≠ [] := by
    obtain ⟨x, xs, hx⟩ := List.exists_cons_of_ne_nil hrest
    rw [hx, List.eraseDups_cons]
    exact List.cons_ne_nil _ _
  have hlast : (file :: rest).eraseDups.getLast? = (rest.filter (· ≠ file)).eraseDups.getLast? := by
    rw [hdups, List.getLast?_cons_of_ne_nil hne]
  simp only [EndsSingle, hlast]
  constructor
  · rintro ⟨name, hname, hcount⟩
    have hmem := List.mem_filter.mp (List.mem_eraseDups.mp (List.mem_of_getLast? hname))
    have hnot : name ≠ file := by simpa using hmem.2
    refine ⟨name, hname, ?_⟩
    rw [List.count_filter (by simpa using hnot)]
    rwa [List.count_cons_of_ne (Ne.symm hnot)] at hcount
  · rintro ⟨name, hname, hcount⟩
    have hmem := List.mem_filter.mp (List.mem_eraseDups.mp (List.mem_of_getLast? hname))
    have hnot : name ≠ file := by simpa using hmem.2
    refine ⟨name, hname, ?_⟩
    rw [List.count_filter (by simpa using hnot)] at hcount
    rwa [List.count_cons_of_ne (Ne.symm hnot)]

/-- Copies of one name end single just when there is one. -/
theorem endsSingle_copies {file : String} {rest : List String}
    (hrest : rest.filter (· ≠ file) = []) : EndsSingle (file :: rest) ↔ rest = [] := by
  have hall : ∀ x ∈ rest, x = file := by
    intro x hx
    have hnot := List.filter_eq_nil_iff.mp hrest x hx
    simpa using hnot
  have hfilter : (rest.filter fun b => !b == file) = [] := by
    rw [List.filter_eq_nil_iff]
    intro x hx
    simp [hall x hx]
  have hdups : (file :: rest).eraseDups = [file] := by
    rw [List.eraseDups_cons, hfilter, List.eraseDups_nil]
  simp only [EndsSingle, hdups, List.getLast?_singleton, Option.some.injEq]
  constructor
  · rintro ⟨name, rfl, hcount⟩
    rw [List.count_cons_self, Nat.add_eq_right, List.count_eq_zero] at hcount
    cases rest with
    | nil => rfl
    | cons x rest => exact absurd (hall x List.mem_cons_self ▸ List.mem_cons_self) hcount
  · rintro rfl
    exact ⟨file, rfl, List.count_singleton_self⟩

variable (rsync page) in
/-- Files that are all stored leave the list one name at a time. -/
theorem drain (hne : files ≠ []) (hremote : ∀ file ∈ files, file ∈ c.remote)
    (hstored : ∀ file ∈ files, file ∈ c.stored) (hlog : [] ∉ log) :
    ∃ w', Leads rsync page ⟨c, .submit files, log⟩ w' ∧
      (EndsSingle files → w'.phase = .done ∧ w'.cluster = c ∧ [] ∉ w'.submissions) ∧
      (¬ EndsSingle files → [] ∈ w'.submissions) := by
  induction hn : files.length using Nat.strong_induction_on generalizing files log with
  | _ n ih =>
    obtain ⟨file, rest, rfl⟩ := List.exists_cons_of_ne_nil hne
    have hfind := find?_eraseDups_head rest (hstored file List.mem_cons_self)
    have hlog' : [] ∉ log ++ [file :: rest] := by simpa using hlog
    by_cases hlen : (file :: rest).length = 1
    · have hrest : rest = [] := by simpa using hlen
      refine ⟨_, Leads.of_step step_submit, ?_, ?_⟩
      · intro _
        rw [storeFromLocal_exists hremote hfind]
        exact ⟨if_pos hlen, rfl, hlog'⟩
      · intro hnot
        subst hrest
        exact absurd ((endsSingle_copies (by simp)).mpr rfl) hnot
    · have hstep := step_submit_exists rsync page log hremote hfind hlen
      have hfilter : (file :: rest).filter (· ≠ file) = rest.filter (· ≠ file) := by simp
      rw [hfilter] at hstep
      have hsub : ∀ x ∈ rest.filter (· ≠ file), x ∈ file :: rest :=
        fun x hx => List.mem_cons_of_mem _ (List.mem_filter.mp hx).1
      by_cases hnil : rest.filter (· ≠ file) = []
      · rw [hnil] at hstep
        refine ⟨_, (Leads.of_step hstep).trans (Leads.of_step step_submit), ?_, ?_⟩
        · intro hsingle
          rw [endsSingle_copies hnil] at hsingle
          rw [hsingle] at hlen
          exact absurd rfl hlen
        · intro _
          exact List.mem_append_right _ (List.mem_singleton_self _)
      · have hshort : (rest.filter (· ≠ file)).length < n := by
          rw [← hn, List.length_cons]
          exact Nat.lt_succ_of_le (List.length_filter_le _ _)
        obtain ⟨w', hleads, hgood, hbad⟩ := ih _ hshort hnil (fun x hx => hremote x (hsub x hx))
          (fun x hx => hstored x (hsub x hx)) hlog' rfl
        refine ⟨w', (Leads.of_step hstep).trans hleads, ?_, ?_⟩
        · rw [endsSingle_cons hnil]
          exact hgood
        · rw [endsSingle_cons hnil]
          exact hbad

variable (rsync page) in
/-- Files that are stored leave the list while some are not. -/
theorem reduce (hnew : files.filter (· ∉ c.stored) ≠ [])
    (hremote : ∀ file ∈ files, file ∈ c.remote) (hlog : [] ∉ log) :
    ∃ log', [] ∉ log' ∧ Leads rsync page ⟨c, .submit files, log⟩
      ⟨c, .submit (files.filter (· ∉ c.stored)), log'⟩ := by
  induction hn : files.length using Nat.strong_induction_on generalizing files log with
  | _ n ih =>
    cases hfind : files.eraseDups.find? (· ∈ c.stored) with
    | none =>
      have hall : files.filter (· ∉ c.stored) = files := by
        rw [List.filter_eq_self]
        intro file hfile
        have hnot := List.find?_eq_none.mp hfind file (List.mem_eraseDups.mpr hfile)
        simpa using hnot
      rw [hall]
      exact ⟨log, hlog, .refl _⟩
    | some key =>
      have hmem := List.mem_eraseDups.mp (List.mem_of_find?_eq_some hfind)
      have hkey : key ∈ c.stored := by simpa using List.find?_some hfind
      obtain ⟨file, hfile⟩ := List.exists_mem_of_ne_nil _ hnew
      rw [List.mem_filter] at hfile
      have hother : file ≠ key := by
        rintro rfl
        simp [hkey] at hfile
      have hlen : files.length ≠ 1 := by
        intro hone
        obtain ⟨x, rfl⟩ := List.length_eq_one_iff.mp hone
        rw [List.mem_singleton] at hmem
        exact hother ((List.mem_singleton.mp hfile.1).trans hmem.symm)
      have hstep := step_submit_exists rsync page log hremote hfind hlen
      have hsame : (files.filter (· ≠ key)).filter (· ∉ c.stored) = files.filter (· ∉ c.stored) := by
        rw [List.filter_filter]
        apply List.filter_congr
        intro x _
        by_cases hx : x = key
        · subst hx
          simp [hkey]
        · simp [hx]
      have hshort : (files.filter (· ≠ key)).length < n := by
        rw [← hn]
        apply List.length_filter_lt_length_iff_exists.mpr
        exact ⟨key, hmem, by simp⟩
      have hlog' : [] ∉ log ++ [files] := by
        simp only [List.mem_append, List.mem_singleton, not_or]
        exact ⟨hlog, fun hnil => by rw [← hnil] at hmem; exact List.not_mem_nil hmem⟩
      obtain ⟨log', hne, hleads⟩ := ih _ hshort (hsame ▸ hnew)
        (fun x hx => hremote x (List.mem_filter.mp hx).1) hlog' rfl
      rw [hsame] at hleads
      exact ⟨log', hne, (Leads.of_step hstep).trans hleads⟩

variable (rsync page) in
/-- Files that are not stored are stored; then the page ends, or begins again. -/
theorem submit_new (hne : files ≠ []) (hremote : ∀ file ∈ files, file ∈ c.remote)
    (hnew : ∀ file ∈ files, file ∉ c.stored) (hlog : [] ∉ log) :
    ∃ w', Leads rsync page ⟨c, .submit files, log⟩ w' ∧
      w'.cluster.stored = c.stored ++ files.eraseDups ∧ [] ∉ w'.submissions ∧
      w'.phase = if files.Nodup then .done else .pass := by
  refine ⟨_, Leads.of_step step_submit, ?_, ?_, ?_⟩
  · rw [storeFromLocal_new hne hremote hnew, removeFiles_stored]
  · simp only [List.mem_append, List.mem_singleton, not_or]
    exact ⟨hlog, hne.symm⟩
  · simp only [storeFromLocal_new hne hremote hnew, removeFiles_answer]
    by_cases hnodup : files.Nodup
    · rw [if_pos ⟨hnodup, hremote⟩, if_pos hnodup]
      rfl
    · rw [if_neg fun h => hnodup h.1, if_neg hnodup]
      rfl

/-! ## Passes -/

section Pass

variable (hrsync : ∀ names, names ≠ [] → rsync names = true)

include hrsync

/-- A pass brings the files to the cluster and submits them. -/
theorem step_pass (hne : pageFiles page ≠ []) (hphase : w.phase = .pass) :
    w.step rsync page = ⟨⟨w.cluster.stored, w.cluster.remote ++ (pageFiles page).eraseDups⟩,
      .submit (pageFiles page), w.submissions⟩ := by
  have hdups : (pageFiles page).eraseDups ≠ [] := by
    obtain ⟨file, files, hfiles⟩ := List.exists_cons_of_ne_nil hne
    rw [hfiles, List.eraseDups_cons]
    exact List.cons_ne_nil _ _
  rw [step, hphase]
  exact if_pos (hrsync _ hdups)

/-- A pass with all files stored. -/
theorem handles_stored_iff (hne : pageFiles page ≠ []) (hphase : w.phase = .pass)
    (hstored : ∀ file ∈ pageFiles page, file ∈ w.cluster.stored) (hlog : [] ∉ w.submissions) :
    w.Handles rsync page ↔ EndsSingle (pageFiles page) := by
  have hstep := Leads.of_step (step_pass hrsync hne hphase)
  obtain ⟨w', hleads, hgood, hbad⟩ := drain rsync page
    (c := ⟨w.cluster.stored, w.cluster.remote ++ (pageFiles page).eraseDups⟩) hne
    (fun file hfile => List.mem_append_right _ (List.mem_eraseDups.mpr hfile)) hstored hlog
  constructor
  · intro hhandles
    by_contra hsingle
    exact not_handles_of_empty (hstep.trans hleads) (hbad hsingle) hhandles
  · intro hsingle
    obtain ⟨hdone, hcluster, hempty⟩ := hgood hsingle
    exact handles_of_leads (hstep.trans hleads) hdone hempty (by rw [hcluster]; exact hstored)

omit hrsync in
/-- What is handled later is handled, and the other way round. -/
theorem handles_iff_of_leads (h : Leads rsync page w w') :
    w.Handles rsync page ↔ w'.Handles rsync page := by
  obtain ⟨m, rfl⟩ := h
  constructor
  · rintro ⟨n, hdone, hrest⟩
    refine ⟨n, ?_⟩
    rw [← Function.iterate_add_apply, Nat.add_comm, Function.iterate_add_apply, iterate_done hdone]
    exact ⟨hdone, hrest⟩
  · rintro ⟨n, hdone⟩
    refine ⟨n + m, ?_⟩
    rw [Function.iterate_add_apply]
    exact hdone

omit hrsync in
/-- A page without files never ends, or is submitted empty. -/
theorem not_handles_nil (hnil : pageFiles page = []) (hphase : w.phase = .pass) :
    ¬ w.Handles rsync page := by
  by_cases hsync : rsync (pageFiles page).eraseDups = true
  · have hstep : w.step rsync page = ⟨⟨w.cluster.stored,
        w.cluster.remote ++ (pageFiles page).eraseDups⟩, .submit [], w.submissions⟩ := by
      rw [step, hphase, ← hnil]
      exact if_pos hsync
    apply not_handles_of_empty ((Leads.of_step hstep).trans (Leads.of_step step_submit))
    exact List.mem_append_right _ (List.mem_singleton_self _)
  · have hstay : w.step rsync page = w := by
      rw [step, hphase]
      exact if_neg hsync
    have hforever : ∀ n, (step rsync page)^[n] w = w := by
      intro n
      induction n with
      | zero => rfl
      | succ n ih => rw [Function.iterate_succ_apply, hstay, ih]
    rintro ⟨n, hdone, -⟩
    rw [hforever n, hphase] at hdone
    cases hdone

end Pass

/-- A row of a tarball that is in a file, or in the store under its URL. -/
def tarballAt (url : String) (localPath : Option String) : DownloadedTarball :=
  ⟨url, 0, none, none, none, none, none, none, none, localPath,
    if localPath.isSome then none else some url, some 1⟩

end PageWorker

end NpmFollower.TarballTransfer
