import NpmFollower.DiffLogBuilder.RepoForms

/-! # What a repository field can do

A text of any form is read without a panic exactly when the gist that it names has a
plain path. A path of more than two components is read as a directory of its host but
for a slip on one host, and a repository has a user and a name where the text has them.
-/

namespace NpmFollower.DiffLogBuilder

open PostgresDb

/-- A reader of URLs of https that have a host and a path. -/
def httpsUrls : UrlCrate where
  Url := Text × Text
  parse x := ("https://".toList.isPrefixOf? x).map fun rest =>
    (rest.takeWhile (· ≠ '/'), rest.dropWhile (· ≠ '/'))
  scheme _ := "https".toList
  hostStr url := some url.1
  username _ := []
  path url := url.2
  setPath url path := (url.1, path)
  toText url := "https://".toList ++ url.1 ++ url.2

/-! ## Gists -/

/-- A path without a slash, or of two plain components. -/
def PlainGistPath (path : Text) : Prop :=
  path.count '/' = 0 ∨ path.count '/' = 1 ∧ ':' ∉ path ∧ '@' ∉ path

instance (path : Text) : Decidable (PlainGistPath path) := by
  unfold PlainGistPath
  infer_instance

theorem exists_pathOf_iff {path : Text} :
    (∃ user repo, path = pathOf user repo ∧ Clean user ∧ Clean repo) ↔
      path.count '/' = 1 ∧ ':' ∉ path ∧ '@' ∉ path := by
  constructor
  · rintro ⟨user, repo, rfl, hu, hr⟩
    obtain ⟨hslash, hu⟩ := clean_iff.mp hu
    obtain ⟨hslash', hr⟩ := clean_iff.mp hr
    refine ⟨?_, by simp [pathOf, hu, hr], by simp [pathOf, hu, hr]⟩
    rw [pathOf, List.count_append, List.count_cons_self, List.count_eq_zero.mpr hslash,
      List.count_eq_zero.mpr hslash']
  · rintro ⟨hcount, hcolon, hat⟩
    have hmem : '/' ∈ path := List.count_pos_iff.mp (by omega)
    obtain ⟨user, repo, rfl⟩ := List.append_of_mem hmem
    rw [List.count_append, List.count_cons_self] at hcount
    simp only [List.mem_append, List.mem_cons, not_or] at hcolon hat
    refine ⟨user, repo, rfl, clean_iff.mpr ⟨?_, hcolon.1, hat.1⟩,
      clean_iff.mpr ⟨?_, hcolon.2.2, hat.2.2⟩⟩
    · exact List.count_eq_zero.mp (by omega)
    · exact List.count_eq_zero.mp (by omega)

theorem parseGistPath_ok_iff {path : Text} :
    (∃ info, parseGistPath path = .ok info) ↔ PlainGistPath path := by
  rw [PlainGistPath, ← exists_pathOf_iff, parseGistPath, List.count_eq_zero]
  by_cases hslash : '/' ∈ path
  · rw [if_pos (by simpa using hslash)]
    cases hshort : tryParseUserRepoShorthand path with
    | some parts =>
      have hparts := tryParseUserRepoShorthand_eq_some_iff.mp hshort
      exact iff_of_true ⟨_, rfl⟩ (.inr ⟨_, _, hparts⟩)
    | none =>
      apply iff_of_false
      · rintro ⟨info, ⟨⟩⟩
      · rintro (hnot | ⟨user, repo, hparts⟩)
        · exact hnot hslash
        · cases hshort.symm.trans (tryParseUserRepoShorthand_eq_some_iff.mpr hparts)
  · rw [if_neg (by simpa using hslash)]
    exact iff_of_true ⟨_, rfl⟩ (.inl hslash)

namespace UrlCrate

variable (W : UrlCrate) {x : Text}

/-- The text names the gist of this path. -/
inductive NamesGist (x : Text) : Text → Prop where
  | beginning {path : Text} (hx : x = gistBeginning ++ path) : NamesGist x path
  | ssh {path : Text} (hx : x = "git@".toList ++ gistDomain ++ ':' :: path)
      (hpath : hasColonOrAt path = false) : NamesGist x path
  | url {u : W.Url} {path : Text} (hx : W.ReadsUrl x u) (hu : W.LeadsTo u gistDomain path) :
      NamesGist x path

variable {W}

theorem deserialize_of_namesGist {path : Text} (h : W.NamesGist x path) :
    W.deserializeRepoInferTypeStr x = (parseGistPath path).map some := by
  cases h with
  | beginning hx =>
    rw [hx]
    exact deserialize_gistBeginning path
  | ssh hx hpath =>
    rw [hx, deserialize_ssh (by decide) hpath, if_neg (by decide), if_neg (by decide),
      if_neg (by decide)]
    exact if_pos rfl
  | url hx hu =>
    rw [deserialize_url hx, parseUrl_of_leadsTo hu, if_neg (by decide), if_neg (by decide),
      if_neg (by decide)]
    exact if_pos rfl

theorem map_ok_iff {path : Text} :
    (∃ info, ((parseGistPath path).map some : Except String (Option RepoInfo)) = .ok info) ↔
      PlainGistPath path := by
  rw [← parseGistPath_ok_iff]
  cases parseGistPath path with
  | ok info => exact iff_of_true ⟨_, rfl⟩ ⟨_, rfl⟩
  | error e => exact iff_of_false (by rintro ⟨_, ⟨⟩⟩) (by rintro ⟨_, ⟨⟩⟩)

/-- A text is read without a panic exactly when the path of a gist that it names is plain. -/
theorem deserialize_returns_iff (W : UrlCrate) (x : Text) :
    (∃ info, W.deserializeRepoInferTypeStr x = .ok info) ↔
      ∀ path, W.NamesGist x path → PlainGistPath path := by
  constructor
  · intro hreturns path hpath
    rw [deserialize_of_namesGist hpath] at hreturns
    exact map_ok_iff.mp hreturns
  · intro hplain
    have hreading := W.reading x
    generalize W.deserializeRepoInferTypeStr x = result at hreading
    cases hreading with
    | gistBeginning path hx => exact map_ok_iff.mpr (hplain path (.beginning hx))
    | sshGist hx hpath => exact map_ok_iff.mpr (hplain _ (.ssh hx hpath))
    | urlGist hx hu => exact map_ok_iff.mpr (hplain _ (.url hx hu))
    | _ => exact ⟨_, rfl⟩

/-- The path of the gist has three components. -/
theorem deserialize_panics_gist :
    httpsUrls.deserializeRepoInferTypeStr "https://gist.github.com/ann/aa5a315d61ae9438b18d/raw".toList =
      .error "called `Option::unwrap()` on a `None` value" := by
  decide +kernel

end UrlCrate

/-! ## Directories -/

theorem parseHostedPath_eq_some_iff {new : Text → Text → Text → RepoInfo} {k : ℕ}
    {bad : List Text → Bool} {path : Text} {info : RepoInfo} :
    parseHostedPath new (k + 3) bad path = some info ↔
      (∃ user repo, path = pathOf user repo ∧ Clean user ∧ Clean repo ∧
        info = new [] user (stripDotGit repo)) ∨
      ∃ user repo rest, path.splitOn '/' = user :: repo :: rest ∧ k < rest.length ∧
        bad (user :: repo :: rest) = false ∧
          info = new (['/'].intercalate (rest.drop (k + 1))) user (stripDotGit repo) := by
  rw [parseHostedPath]
  cases hshort : tryParseUserRepoShorthand path with
  | some parts =>
    obtain ⟨user, repo⟩ := parts
    obtain ⟨hpath, hu, hr⟩ := tryParseUserRepoShorthand_eq_some_iff.mp hshort
    dsimp only
    constructor
    · intro h
      exact .inl ⟨user, repo, hpath, hu, hr, (Option.some.inj h).symm⟩
    · rintro (⟨user', repo', hpath', hu', hr', rfl⟩ | ⟨user', repo', rest, hsplit, hlen, -⟩)
      · have hshort' := tryParseUserRepoShorthand_eq_some_iff.mpr ⟨hpath', hu', hr'⟩
        cases hshort.symm.trans hshort'
        rfl
      · rw [hpath, pathOf, splitOn_pair hu.slash hr.slash] at hsplit
        cases hsplit
        simp at hlen
  | none =>
    have hnot : ¬∃ user repo, path = pathOf user repo ∧ Clean user ∧ Clean repo ∧
        info = new [] user (stripDotGit repo) := by
      rintro ⟨user, repo, hpath, hu, hr, -⟩
      cases hshort.symm.trans (tryParseUserRepoShorthand_eq_some_iff.mpr ⟨hpath, hu, hr⟩)
    rw [or_iff_right hnot]
    dsimp only
    constructor
    · intro h
      split_ifs at h with hbad
      rw [Bool.or_eq_true, not_or, decide_eq_true_eq, Bool.not_eq_true] at hbad
      obtain ⟨hlen, hbad⟩ := hbad
      rcases hsplit : path.splitOn '/' with _ | ⟨user, _ | ⟨repo, rest⟩⟩
      · simp [hsplit] at hlen
      · simp [hsplit] at hlen
      · rw [hsplit] at h hlen hbad
        simp only [List.length_cons] at hlen
        exact ⟨user, repo, rest, rfl, by omega, hbad, (Option.some.inj h).symm⟩
    · rintro ⟨user, repo, rest, hsplit, hlen, hbad, rfl⟩
      rw [hsplit, if_neg]
      · rfl
      · rw [Bool.or_eq_true, not_or, decide_eq_true_eq, Bool.not_eq_true]
        simp only [List.length_cons]
        exact ⟨by omega, hbad⟩

namespace Host

/-- What the code takes for a directory after the user and the repository: the components, and those
of the directory. -/
inductive Reads : Host → List Text → List Text → Prop where
  | github (branch : Text) (dirs : List Text) :
      Reads github ("tree".toList :: branch :: dirs) dirs
  | bitbucket (branch : Text) (dirs : List Text) :
      Reads bitbucket ("src".toList :: branch :: dirs) dirs
  | gitlab {first second : Text} (h : first = "-".toList ∨ second = "tree".toList) (branch : Text)
      (dirs : List Text) : Reads gitlab (first :: second :: branch :: dirs) dirs

variable {host : Host} {path : Text} {info : RepoInfo}

theorem parsePath_eq_some_iff : host.parsePath path = some info ↔
    (∃ user repo, path = pathOf user repo ∧ Clean user ∧ Clean repo ∧
      info = host.new [] user (stripDotGit repo)) ∨
    ∃ user repo rest dirs, path.splitOn '/' = user :: repo :: rest ∧ host.Reads rest dirs ∧
      info = host.new (['/'].intercalate dirs) user (stripDotGit repo) := by
  cases host with
  | github =>
    have hpath : github.parsePath path = parseHostedPath newGithub (1 + 3) (fun comps =>
      comps.getD 2 [] != "tree".toList) path := rfl
    rw [hpath, parseHostedPath_eq_some_iff]
    apply or_congr_right
    constructor
    · rintro ⟨user, repo, rest, hsplit, hlen, hbad, rfl⟩
      match rest, hlen, hbad with
      | marker :: branch :: dirs, _, hbad =>
        have hmarker : marker = "tree".toList := by simpa using hbad
        exact ⟨user, repo, _, dirs, hsplit, hmarker ▸ .github branch dirs, rfl⟩
    · rintro ⟨user, repo, rest, dirs, hsplit, ⟨branch⟩, rfl⟩
      exact ⟨user, repo, _, hsplit, by simp, by simp, rfl⟩
  | bitbucket =>
    have hpath : bitbucket.parsePath path = parseHostedPath newBitbucket (1 + 3) (fun comps =>
      comps.getD 2 [] != "src".toList) path := rfl
    rw [hpath, parseHostedPath_eq_some_iff]
    apply or_congr_right
    constructor
    · rintro ⟨user, repo, rest, hsplit, hlen, hbad, rfl⟩
      match rest, hlen, hbad with
      | marker :: branch :: dirs, _, hbad =>
        have hmarker : marker = "src".toList := by simpa using hbad
        exact ⟨user, repo, _, dirs, hsplit, hmarker ▸ .bitbucket branch dirs, rfl⟩
    · rintro ⟨user, repo, rest, dirs, hsplit, ⟨branch⟩, rfl⟩
      exact ⟨user, repo, _, hsplit, by simp, by simp, rfl⟩
  | gitlab =>
    have hpath : gitlab.parsePath path = parseHostedPath newGitlab (2 + 3) (fun comps =>
      comps.getD 2 [] != "-".toList && comps.getD 3 [] != "tree".toList) path := rfl
    rw [hpath, parseHostedPath_eq_some_iff]
    apply or_congr_right
    constructor
    · rintro ⟨user, repo, rest, hsplit, hlen, hbad, rfl⟩
      match rest, hlen, hbad with
      | first :: second :: branch :: dirs, _, hbad =>
        have hmarker : first = "-".toList ∨ second = "tree".toList := by
          simpa [or_iff_not_imp_left] using hbad
        exact ⟨user, repo, _, dirs, hsplit, .gitlab hmarker branch dirs, rfl⟩
    · rintro ⟨user, repo, rest, dirs, hsplit, hreads, rfl⟩
      cases hreads with
      | gitlab hmarker branch dirs =>
        refine ⟨user, repo, _, hsplit, by simp, ?_, rfl⟩
        simpa [or_iff_not_imp_left] using hmarker

/-- The components before the branch of a directory. -/
def markers : Host → List Text
  | github => ["tree".toList]
  | bitbucket => ["src".toList]
  | gitlab => ["-".toList, "tree".toList]

/-- The path is that of a directory, in the form of the host, and this is its record. -/
def InTree (host : Host) (path : Text) (info : RepoInfo) : Prop :=
  ∃ user repo branch dirs, path.splitOn '/' = user :: repo :: (host.markers ++ branch :: dirs) ∧
    info = host.new (['/'].intercalate dirs) user (stripDotGit repo)

/-- Of the two components that mark a directory of GitLab both are there or none. -/
def MarkersAgree (host : Host) (path : Text) : Prop :=
  host = .gitlab → ∀ user repo first second branch dirs,
    path.splitOn '/' = user :: repo :: first :: second :: branch :: dirs →
      (first = "-".toList ↔ second = "tree".toList)

theorem inTree_iff_parsePath (hlen : 2 < (path.splitOn '/').length)
    (hagree : host.MarkersAgree path) : host.parsePath path = some info ↔ host.InTree path info := by
  rw [parsePath_eq_some_iff, or_iff_right]
  · constructor
    · rintro ⟨user, repo, rest, dirs, hsplit, hreads, rfl⟩
      cases hreads with
      | github branch dirs => exact ⟨user, repo, branch, dirs, hsplit, rfl⟩
      | bitbucket branch dirs => exact ⟨user, repo, branch, dirs, hsplit, rfl⟩
      | gitlab hmarker branch dirs =>
        have hboth := hagree rfl user repo _ _ branch dirs hsplit
        have hfirst := hmarker.elim id hboth.mpr
        have hsecond := hmarker.elim hboth.mp id
        rw [hfirst, hsecond] at hsplit
        exact ⟨user, repo, branch, dirs, hsplit, rfl⟩
    · rintro ⟨user, repo, branch, dirs, hsplit, rfl⟩
      cases host with
      | github => exact ⟨user, repo, _, dirs, hsplit, .github branch dirs, rfl⟩
      | bitbucket => exact ⟨user, repo, _, dirs, hsplit, .bitbucket branch dirs, rfl⟩
      | gitlab => exact ⟨user, repo, _, dirs, hsplit, .gitlab (.inl rfl) branch dirs, rfl⟩
  · rintro ⟨user, repo, rfl, hu, hr, -⟩
    rw [pathOf, splitOn_pair hu.slash hr.slash] at hlen
    simp at hlen

/-- A directory is read in the form of the host alone, and all other paths are rejected. -/
def ReadsTrees (host : Host) (path : Text) (result : Except String (Option RepoInfo)) : Prop :=
  (∀ info, result = .ok (some info) ↔ host.InTree path info) ∧
    ((∀ info, ¬host.InTree path info) → result = .ok none)

theorem readsTrees_iff (hlen : 2 < (path.splitOn '/').length) :
    host.ReadsTrees path (.ok (host.parsePath path)) ↔ host.MarkersAgree path := by
  constructor
  · rintro ⟨hexact, -⟩ rfl user repo first second branch dirs hsplit
    have hmarked (hmarker : first = "-".toList ∨ second = "tree".toList) :
        first = "-".toList ∧ second = "tree".toList := by
      have hparse : gitlab.parsePath path = some (gitlab.new (['/'].intercalate dirs) user
          (stripDotGit repo)) :=
        parsePath_eq_some_iff.mpr (.inr ⟨user, repo, _, dirs, hsplit, .gitlab hmarker branch dirs, rfl⟩)
      obtain ⟨user', repo', branch', dirs', hsplit', -⟩ := (hexact _).mp (congrArg Except.ok hparse)
      cases hsplit.symm.trans hsplit'
      exact ⟨rfl, rfl⟩
    exact ⟨fun h => (hmarked (.inl h)).2, fun h => (hmarked (.inr h)).1⟩
  · intro hagree
    have hiff (info : RepoInfo) : host.parsePath path = some info ↔ host.InTree path info :=
      inTree_iff_parsePath hlen hagree
    refine ⟨fun info => ?_, fun hnone => ?_⟩
    · rw [← hiff info, Except.ok.injEq]
    · rw [Option.eq_none_iff_forall_ne_some.mpr fun info h => hnone info ((hiff info).mp h)]

end Host

section

variable {W : UrlCrate} {x rest path : Text} {u : W.Url} {host : Host}

/-- The paths of more than two components of a URL of https are read as they should be exactly when
the marks of a directory of GitLab agree. -/
theorem directories_exact_iff (hx : x = "https://".toList ++ rest) (hparse : W.parse x = some u)
    (hscheme : W.scheme u = "https".toList) (hhost : W.hostStr u = some host.domain)
    (hpath : ∃ p, W.path u = '/' :: p ∧ (['/'].isSuffixOf? p).getD p = path)
    (hlen : 2 < (path.splitOn '/').length) :
    host.ReadsTrees path (W.parseUrlOrSshCase x) ↔ host.MarkersAgree path := by
  have hnoSsh : tryParseGitSshFormat x = none := by
    rw [hx]
    rfl
  have hleads : W.LeadsTo u host.domain path :=
    ⟨hhost, hpath, fun h => absurd (hscheme.symm.trans h) (by decide)⟩
  rw [← Host.readsTrees_iff hlen, UrlCrate.parseUrlOrSshCase, hnoSsh, hparse]
  dsimp only
  rw [UrlCrate.parseUrl_of_host hleads]

end

theorem directories_exact_npm :
    Host.github.ReadsTrees "npm/cli/tree/latest/workspaces/arborist".toList
      (httpsUrls.parseUrlOrSshCase
        "https://github.com/npm/cli/tree/latest/workspaces/arborist".toList) := by
  have hx : "https://github.com/npm/cli/tree/latest/workspaces/arborist".toList =
    "https://".toList ++ "github.com/npm/cli/tree/latest/workspaces/arborist".toList := rfl
  have hparse : httpsUrls.parse "https://github.com/npm/cli/tree/latest/workspaces/arborist".toList =
      some ("github.com".toList, "/npm/cli/tree/latest/workspaces/arborist".toList) := rfl
  exact (directories_exact_iff hx hparse rfl rfl ⟨_, rfl, by decide +kernel⟩
    (by decide +kernel)).mpr nofun

/-- The page of an issue is read as a repository. -/
theorem not_readsTrees_issue : ¬Host.gitlab.ReadsTrees "npm/cli/-/issues/12".toList
    (httpsUrls.parseUrlOrSshCase "https://gitlab.com/npm/cli/-/issues/12".toList) := by
  rintro ⟨hexact, -⟩
  have hresult : httpsUrls.parseUrlOrSshCase "https://gitlab.com/npm/cli/-/issues/12".toList =
      .ok (some (newGitlab [] "npm".toList "cli".toList)) := by decide +kernel
  obtain ⟨user, repo, branch, dirs, hsplit, -⟩ := (hexact _).mp hresult
  have hcomps : "npm/cli/-/issues/12".toList.splitOn '/' = ["npm".toList, "cli".toList, "-".toList,
    "issues".toList, "12".toList] := by decide +kernel
  cases hcomps.symm.trans hsplit

/-! ## Users and names -/

/-- The user and the name of a repository that a host has. -/
def userRepo : RepoHostInfo → Option (String × String)
  | .github user repo => some (user, repo)
  | .bitbucket user repo => some (user, repo)
  | .gitlab user repo => some (user, repo)
  | _ => none

theorem userRepo_new (host : Host) (dir user repo : Text) :
    userRepo (host.new dir user repo).hostInfo = some (String.ofList user, String.ofList repo) := by
  cases host <;> rfl

/-- The user and the name are there, and each is one component. -/
def WellFormed (info : RepoInfo) : Prop :=
  ∀ user repo, userRepo info.hostInfo = some (user, repo) →
    user ≠ "" ∧ repo ≠ "" ∧ '/' ∉ user.toList ∧ '/' ∉ repo.toList

theorem stripDotGit_eq_nil_iff {repo : Text} : stripDotGit repo = [] ↔
    repo = [] ∨ repo = ".git".toList := by
  by_cases hgit : ".git".toList <:+ repo
  · obtain ⟨name, rfl⟩ := hgit
    rw [stripDotGit_append]
    constructor
    · rintro rfl
      exact .inr rfl
    · rintro (h | h)
      · exact absurd h (by simp)
      · simpa using h
  · rw [stripDotGit_of_not hgit]
    constructor
    · exact .inl
    · rintro (h | h)
      · exact h
      · exact absurd (h ▸ List.suffix_rfl) hgit

theorem not_mem_stripDotGit {c : Char} {repo : Text} (h : c ∉ repo) : c ∉ stripDotGit repo := by
  by_cases hgit : ".git".toList <:+ repo
  · obtain ⟨name, rfl⟩ := hgit
    rw [stripDotGit_append]
    exact fun hc => h (List.mem_append_left _ hc)
  · rwa [stripDotGit_of_not hgit]

theorem wellFormed_new (host : Host) {dir user repo : Text} (hu : '/' ∉ user) (hr : '/' ∉ repo) :
    WellFormed (host.new dir user (stripDotGit repo)) ↔
      user ≠ [] ∧ repo ≠ [] ∧ repo ≠ ".git".toList := by
  have hempty {s : Text} : String.ofList s = "" ↔ s = [] := by
    rw [← String.toList_inj, String.toList_ofList]
    simp
  rw [WellFormed, userRepo_new, ← not_or, ← stripDotGit_eq_nil_iff]
  constructor
  · intro h
    obtain ⟨huser, hrepo, -⟩ := h _ _ rfl
    exact ⟨fun heq => huser (hempty.mpr heq), fun heq => hrepo (hempty.mpr heq)⟩
  · rintro ⟨huser, hrepo⟩ _ _ ⟨⟩
    rw [String.toList_ofList, String.toList_ofList]
    exact ⟨fun heq => huser (hempty.mp heq), fun heq => hrepo (hempty.mp heq), hu,
      not_mem_stripDotGit hr⟩

namespace UrlCrate

variable (W : UrlCrate)

/-- The text has these components where a host has the user and the repository. -/
inductive NamesRepo (x : Text) : Text → Text → Prop where
  | beginning (host : Host) {user repo : Text} (hu : Clean user) (hr : Clean repo)
      (hx : x = host.beginning ++ pathOf user repo) : NamesRepo x user repo
  | shorthand {user repo : Text} (hu : Clean user) (hr : Clean repo) (hx : x = pathOf user repo) :
      NamesRepo x user repo
  | ssh (host : Host) {user repo : Text} (hu : Clean user) (hr : Clean repo)
      (hx : x = "git@".toList ++ host.domain ++ ':' :: pathOf user repo) : NamesRepo x user repo
  | url (host : Host) {u : W.Url} {user repo : Text} (hu : Clean user) (hr : Clean repo)
      (hx : W.ReadsUrl x u) (hpath : W.LeadsTo u host.domain (pathOf user repo)) :
      NamesRepo x user repo
  | tree (host : Host) {u : W.Url} {path user repo : Text} {rest dirs : List Text}
      (hx : W.ReadsUrl x u) (hpath : W.LeadsTo u host.domain path)
      (hsplit : path.splitOn '/' = user :: repo :: rest) (hreads : host.Reads rest dirs) :
      NamesRepo x user repo

variable {W} {x : Text}

theorem parseUserRepo_clean (new : Text → Text → Text → RepoInfo) {user repo : Text}
    (hu : Clean user) (hr : Clean repo) :
    parseUserRepo new (pathOf user repo) = some (new [] user (stripDotGit repo)) := by
  rw [parseUserRepo, tryParseUserRepoShorthand_eq_some_iff.mpr ⟨rfl, hu, hr⟩]
  rfl

theorem hasColonOrAt_pathOf {user repo : Text} (hu : Clean user) (hr : Clean repo) :
    hasColonOrAt (pathOf user repo) = false := by
  obtain ⟨-, hu⟩ := clean_iff.mp hu
  obtain ⟨-, hr⟩ := clean_iff.mp hr
  simp [hasColonOrAt, pathOf, hu, hr]

/-- A text that has a user and a repository is read as these. -/
theorem exists_of_namesRepo {user repo : Text} (h : W.NamesRepo x user repo) :
    ('/' ∉ user ∧ '/' ∉ repo) ∧ ∃ host dir, W.deserializeRepoInferTypeStr x =
      .ok (some (Host.new host dir user (stripDotGit repo))) := by
  cases h with
  | beginning host hu hr hx =>
    refine ⟨⟨hu.slash, hr.slash⟩, host, [], ?_⟩
    rw [hx, deserialize_beginning, parseUserRepo_clean host.new hu hr]
  | shorthand hu hr hx =>
    refine ⟨⟨hu.slash, hr.slash⟩, .github, [], ?_⟩
    rw [hx]
    exact deserialize_shorthand hu hr
  | ssh host hu hr hx =>
    refine ⟨⟨hu.slash, hr.slash⟩, host, [], ?_⟩
    rw [hx, deserialize_ssh host.hasColonOrAt_domain (hasColonOrAt_pathOf hu hr),
      parseUserRepo_clean _ hu hr, parseUserRepo_clean _ hu hr, parseUserRepo_clean _ hu hr]
    cases host with
    | github => exact if_pos rfl
    | bitbucket =>
      rw [if_neg (by decide)]
      exact if_pos rfl
    | gitlab =>
      rw [if_neg (by decide), if_neg (by decide)]
      exact if_pos rfl
  | url host hu hr hx hpath =>
    refine ⟨⟨hu.slash, hr.slash⟩, host, [], ?_⟩
    rw [deserialize_url hx, parseUrl_of_host hpath,
      Host.parsePath_eq_some_iff.mpr (.inl ⟨_, _, rfl, hu, hr, rfl⟩)]
  | tree host hx hpath hsplit hreads =>
    rename_i u path rest dirs
    refine ⟨⟨not_mem_of_mem_splitOn (hsplit ▸ List.mem_cons_self), not_mem_of_mem_splitOn
      (hsplit ▸ List.mem_cons_of_mem _ List.mem_cons_self)⟩, host, ['/'].intercalate dirs, ?_⟩
    rw [deserialize_url hx, parseUrl_of_host hpath,
      Host.parsePath_eq_some_iff.mpr (.inr ⟨_, _, _, _, hsplit, hreads, rfl⟩)]

theorem exists_of_parseUserRepo {new : Text → Text → Text → RepoInfo} {path : Text} {info : RepoInfo}
    (h : parseUserRepo new path = some info) : ∃ user repo, path = pathOf user repo ∧ Clean user ∧
      Clean repo ∧ info = new [] user (stripDotGit repo) := by
  obtain ⟨⟨user, repo⟩, hshort, rfl⟩ := Option.map_eq_some_iff.mp h
  obtain ⟨hpath, hu, hr⟩ := tryParseUserRepoShorthand_eq_some_iff.mp hshort
  exact ⟨user, repo, hpath, hu, hr, rfl⟩

/-- What is read as the repository of a host has its user and its name in the text. -/
theorem namesRepo_of_hosted {info : RepoInfo} (h : W.deserializeRepoInferTypeStr x = .ok (some info))
    (hhosted : userRepo info.hostInfo ≠ none) :
    ∃ (host : Host) (dir user repo : Text), W.NamesRepo x user repo ∧
      info = host.new dir user (stripDotGit repo) := by
  have hreading := W.reading x
  rw [h] at hreading
  generalize hresult : (.ok (some info) : Except String (Option RepoInfo)) = result at hreading
  have hgist {path : Text} (h : Except.ok (some info) = (parseGistPath path).map some) : False := by
    apply hhosted
    rw [parseGistPath] at h
    split_ifs at h
    · split at h
      · cases h
        rfl
      · cases h
    · cases h
      rfl
  cases hreading with
  | beginning host rest hx =>
    obtain ⟨user, repo, rfl, hu, hr, hinfo⟩ := exists_of_parseUserRepo (Except.ok.inj hresult).symm
    exact ⟨host, [], user, repo, .beginning host hu hr hx, hinfo⟩
  | shorthand hx =>
    obtain ⟨hx, hu, hr⟩ := tryParseUserRepoShorthand_eq_some_iff.mp hx
    exact ⟨.github, [], _, _, .shorthand hu hr hx, Option.some.inj (Except.ok.inj hresult)⟩
  | ssh host hx hpath =>
    obtain ⟨user, repo, rfl, hu, hr, hinfo⟩ := exists_of_parseUserRepo (Except.ok.inj hresult).symm
    exact ⟨host, [], user, repo, .ssh host hu hr hx, hinfo⟩
  | url host hx hu =>
    rcases Host.parsePath_eq_some_iff.mp (Except.ok.inj hresult).symm with
      ⟨user, repo, rfl, huser, hr, hinfo⟩ | ⟨user, repo, rest, dirs, hsplit, hreads, hinfo⟩
    · exact ⟨host, [], user, repo, .url host huser hr hx hu, hinfo⟩
    · exact ⟨host, _, user, repo, .tree host hx hu hsplit hreads, hinfo⟩
  | thirdparty => exact absurd (by cases hresult; rfl) hhosted
  | gistBeginning => exact (hgist hresult).elim
  | sshGist => exact (hgist hresult).elim
  | urlGist => exact (hgist hresult).elim
  | none => cases hresult

/-- What a text is read as is well-formed exactly when the user and the repository that it names
are. -/
theorem wellFormed_iff (W : UrlCrate) (x : Text) :
    (∀ info, W.deserializeRepoInferTypeStr x = .ok (some info) → WellFormed info) ↔
      ∀ user repo, W.NamesRepo x user repo → user ≠ [] ∧ repo ≠ [] ∧ repo ≠ ".git".toList := by
  constructor
  · intro hwell user repo hnames
    obtain ⟨⟨hu, hr⟩, host, dir, hread⟩ := exists_of_namesRepo hnames
    exact (wellFormed_new host hu hr).mp (hwell _ hread)
  · intro hplain info hread
    by_cases hhosted : userRepo info.hostInfo = none
    · intro user repo hsome
      cases hhosted.symm.trans hsome
    · obtain ⟨host, dir, user, repo, hnames, rfl⟩ := namesRepo_of_hosted hread hhosted
      obtain ⟨⟨hu, hr⟩, -⟩ := exists_of_namesRepo hnames
      exact (wellFormed_new host hu hr).mpr (hplain user repo hnames)

/-- The repository has no name. -/
theorem not_wellFormed_noName : ∃ info,
    httpsUrls.deserializeRepoInferTypeStr "https://github.com/npm/.git".toList = .ok (some info) ∧
      ¬WellFormed info := by
  refine ⟨newGithub [] "npm".toList [], by decide +kernel, fun hwell => ?_⟩
  exact (hwell "npm" "" (by decide)).2.1 rfl

end UrlCrate

end NpmFollower.DiffLogBuilder
