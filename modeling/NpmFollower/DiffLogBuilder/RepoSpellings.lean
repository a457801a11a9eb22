import NpmFollower.DiffLogBuilder.DeserializeRepo

/-! # The spellings of a GitHub repository

A user and a repository can be written as a shorthand, as a URL in several schemes,
in the ssh form of git or as one of two broken URLs. All are read as one repository,
with or without the suffix of a bare repository.
-/

namespace NpmFollower.DiffLogBuilder

open PostgresDb

/-- `A-Z a-z 0-9 . _ -` -/
def isNameChar (c : Char) : Bool := c.isAlphanum || c == '.' || c == '_' || c == '-'

/-- A name that a URL keeps as it is. -/
structure Segment (s : Text) : Prop where
  nonempty : s ≠ []
  isNameChar : ∀ c ∈ s, isNameChar c = true
  notDot : s ≠ ".".toList
  notDotDot : s ≠ "..".toList

namespace Segment

variable {s : Text} (hs : Segment s)
include hs

theorem not_mem {c : Char} (hc : DiffLogBuilder.isNameChar c = false) : c ∉ s := fun h =>
  absurd (hs.isNameChar c h) (by rw [hc]; exact Bool.false_ne_true)

theorem slash_not_mem : '/' ∉ s := hs.not_mem (by decide)

theorem colon_not_mem : ':' ∉ s := hs.not_mem (by decide)

theorem not_hasColonOrAt : hasColonOrAt s = false := by
  simp [hasColonOrAt, hs.colon_not_mem, hs.not_mem (c := '@') (by decide)]

theorem append_dotGit : Segment (s ++ ".git".toList) where
  nonempty := by simp
  isNameChar c hc := by
    rcases List.mem_append.mp hc with hc | hc
    · exact hs.isNameChar c hc
    · exact List.all_eq_true.mp (by decide : ".git".toList.all DiffLogBuilder.isNameChar = true) c hc
  notDot h := absurd (congrArg List.length h) (by simp)
  notDotDot h := absurd (congrArg List.length h) (by simp)

end Segment

/-- `user/repo` -/
def pathOf (user repo : Text) : Text := user ++ '/' :: repo

def userInfo (user : Text) : Text := if user = [] then [] else user ++ ['@']

def absoluteUrl (scheme user path : Text) : Text :=
  scheme ++ "://".toList ++ userInfo user ++ "github.com/".toList ++ path

def schemes : List Text :=
  ["https".toList, "http".toList, "git".toList, "git+https".toList, "git+ssh".toList]

/-- A URL of github.com with plain segments is parsed into its parts. -/
def UrlCrate.FollowsStandard (W : UrlCrate) : Prop :=
  ∀ scheme ∈ schemes, ∀ user ∈ [[], "git".toList], ∀ segments : List Text, segments ≠ [] →
    (∀ s ∈ segments, Segment s) →
    ∃ url, W.parse (absoluteUrl scheme user (['/'].intercalate segments)) = some url ∧
      W.scheme url = scheme ∧ W.username url = user ∧ W.hostStr url = some "github.com".toList ∧
      W.path url = '/' :: ['/'].intercalate segments

/-- The ways to write a repository. -/
def spellings (user repo : Text) : List Text :=
  [pathOf user repo,
    "github:".toList ++ pathOf user repo,
    absoluteUrl "https".toList [] (pathOf user repo),
    absoluteUrl "http".toList [] (pathOf user repo),
    absoluteUrl "git".toList [] (pathOf user repo),
    absoluteUrl "git+https".toList [] (pathOf user repo),
    absoluteUrl "git+ssh".toList "git".toList (pathOf user repo),
    "git@github.com:".toList ++ pathOf user repo,
    "https://github.com:".toList ++ pathOf user repo,
    "github.com/".toList ++ pathOf user repo]

/-! ## Shorthands -/

theorem intercalate_pair (c : Char) (a b : Text) : [c].intercalate [a, b] = a ++ c :: b := by
  rw [List.intercalate_cons_cons, List.intercalate_singleton, List.append_assoc]
  rfl

section

variable {user repo : Text} (hu : Segment user) (hr : Segment repo)
include hu hr

theorem splitOn_pathOf : (pathOf user repo).splitOn '/' = [user, repo] := by
  rw [pathOf, ← intercalate_pair]
  apply List.splitOn_intercalate
  · simp [hu.slash_not_mem, hr.slash_not_mem]
  · simp

theorem tryParseUserRepoShorthand_pathOf :
    tryParseUserRepoShorthand (pathOf user repo) = some (user, repo) := by
  simp [tryParseUserRepoShorthand, splitOn_pathOf hu hr, hu.not_hasColonOrAt, hr.not_hasColonOrAt]

theorem parseUserRepo_pathOf : parseUserRepo newGithub (pathOf user repo) =
    some (newGithub [] user (stripDotGit repo)) := by
  rw [parseUserRepo, tryParseUserRepoShorthand_pathOf hu hr]
  rfl

theorem colon_not_mem_pathOf : ':' ∉ pathOf user repo := by
  simp [pathOf, hu.colon_not_mem, hr.colon_not_mem]

theorem at_not_mem_pathOf : '@' ∉ pathOf user repo := by
  simp [pathOf, hu.not_mem (c := '@') (by decide), hr.not_mem (c := '@') (by decide)]

end

theorem isPrefixOf?_eq_none {pre x : Text} {c : Char} (hc : c ∈ pre) (h : c ∉ x) :
    pre.isPrefixOf? x = none := by
  cases hpre : pre.isPrefixOf? x with
  | none => rfl
  | some rest =>
    rw [List.isPrefixOf?_eq_some_iff_append_eq] at hpre
    exact absurd (hpre ▸ List.mem_append_left rest hc) h

/-- A text of other than two components is no shorthand. -/
theorem tryParseUserRepoShorthand_intercalate {pieces : List Text} (hne : pieces ≠ [])
    (hslash : ∀ p ∈ pieces, '/' ∉ p) (hlen : pieces.length ≠ 2) :
    tryParseUserRepoShorthand (['/'].intercalate pieces) = none := by
  rw [tryParseUserRepoShorthand, List.splitOn_intercalate '/' hslash hne]
  rcases pieces with _ | ⟨a, _ | ⟨b, _ | ⟨c, rest⟩⟩⟩
  · rfl
  · rfl
  · exact absurd rfl hlen
  · rfl

theorem tryParseGitSshFormat_of_parts {x rest left right : Text}
    (hrest : "git@".toList.isPrefixOf? x = some rest) (hsplit : rest.splitOn ':' = [left, right])
    (hleft : hasColonOrAt left = false) (hright : hasColonOrAt right = false) :
    tryParseGitSshFormat x = some (left, right) := by
  rw [tryParseGitSshFormat, hrest]
  simp [hsplit, hleft, hright]

/-! ## The suffix of a bare repository -/

theorem stripDotGit_append (repo : Text) : stripDotGit (repo ++ ".git".toList) = repo := by
  rw [stripDotGit, List.isSuffixOf?_eq_some_iff_append_eq.mpr rfl]
  rfl

theorem stripDotGit_of_not {repo : Text} (h : ¬".git".toList <:+ repo) : stripDotGit repo = repo := by
  rw [stripDotGit]
  cases hsuffix : ".git".toList.isSuffixOf? repo with
  | none => rfl
  | some rest => exact absurd ⟨rest, List.isSuffixOf?_eq_some_iff_append_eq.mp hsuffix⟩ h

/-! ## URLs -/

section

variable {user repo : Text} (hu : Segment user) (hr : Segment repo)
include hu hr

theorem isSuffixOf?_slash_pathOf : ['/'].isSuffixOf? (pathOf user repo) = none := by
  cases h : ['/'].isSuffixOf? (pathOf user repo) with
  | none => rfl
  | some rest =>
    rw [List.isSuffixOf?_eq_some_iff_append_eq] at h
    obtain ⟨init, last, hrepo⟩ := List.eq_nil_or_concat repo |>.resolve_left hr.nonempty
    rw [pathOf, hrepo, List.concat_eq_append, ← List.cons_append, ← List.append_assoc] at h
    have hlast : last = '/' := by simpa using (List.append_inj' h rfl).2.symm
    exact absurd (by simp [hrepo, hlast]) hr.slash_not_mem

theorem parseGithubPath_pathOf :
    parseGithubPath (pathOf user repo) = some (newGithub [] user (stripDotGit repo)) := by
  rw [parseGithubPath, parseHostedPath, tryParseUserRepoShorthand_pathOf hu hr]

theorem parseUrl_of_parts {W : UrlCrate} {url : W.Url}
    (hhost : W.hostStr url = some "github.com".toList)
    (hpath : W.path url = '/' :: pathOf user repo)
    (hname : W.scheme url = "git+ssh".toList → W.username url = "git".toList) :
    W.parseUrl url = .ok (some (newGithub [] user (stripDotGit repo))) := by
  have hstrip : ['/'].isPrefixOf? ('/' :: pathOf user repo) = some (pathOf user repo) :=
    List.isPrefixOf?_eq_some_iff_append_eq.mpr rfl
  have hssh : ¬(W.scheme url = "git+ssh".toList ∧ W.username url ≠ "git".toList) :=
    fun h => h.2 (hname h.1)
  rw [UrlCrate.parseUrl, hhost, hpath, hstrip]
  simp only [isSuffixOf?_slash_pathOf hu hr, Option.getD_none, if_neg hssh, if_true,
    parseGithubPath_pathOf hu hr]

end

/-- The user that a URL of each scheme has. -/
def login (scheme : Text) : Text := if scheme = "git+ssh".toList then "git".toList else []

/-- None of the beginnings is there that are looked for before a text is taken for a
shorthand or a URL. -/
structure NoBeginning (x : Text) : Prop where
  github : "github:".toList.isPrefixOf? x = none
  bitbucket : "bitbucket:".toList.isPrefixOf? x = none
  gitlab : "gitlab:".toList.isPrefixOf? x = none
  gist : "gist:".toList.isPrefixOf? x = none

theorem deserialize_of_shorthand {W : UrlCrate} {x user repo : Text} (hx : NoBeginning x)
    (hshort : tryParseUserRepoShorthand x = some (user, repo)) :
    W.deserializeRepoInferTypeStr x = .ok (some (newGithub [] user (stripDotGit repo))) := by
  rw [UrlCrate.deserializeRepoInferTypeStr, hx.github, hx.bitbucket, hx.gitlab, hx.gist, hshort]

theorem deserialize_of_not_shorthand {W : UrlCrate} {x : Text} (hx : NoBeginning x)
    (hshort : tryParseUserRepoShorthand x = none) :
    W.deserializeRepoInferTypeStr x = W.parseMended x := by
  rw [UrlCrate.deserializeRepoInferTypeStr, hx.github, hx.bitbucket, hx.gitlab, hx.gist, hshort]

theorem noBeginning_absoluteUrl {scheme : Text} (hscheme : scheme ∈ schemes) (path : Text) :
    NoBeginning (absoluteUrl scheme (login scheme) path) := by
  simp only [schemes, List.mem_cons, List.not_mem_nil, or_false] at hscheme
  rcases hscheme with h | h | h | h | h <;> subst h <;> exact ⟨rfl, rfl, rfl, rfl⟩

theorem isPrefixOf?_absoluteUrl {scheme : Text} (hscheme : scheme ∈ schemes) (path : Text) :
    "git@".toList.isPrefixOf? (absoluteUrl scheme (login scheme) path) = none ∧
      "https://github.com:".toList.isPrefixOf? (absoluteUrl scheme (login scheme) path) = none := by
  simp only [schemes, List.mem_cons, List.not_mem_nil, or_false] at hscheme
  rcases hscheme with h | h | h | h | h <;> subst h <;> exact ⟨rfl, rfl⟩

theorem slash_not_mem_scheme {scheme : Text} (hscheme : scheme ∈ schemes) :
    '/' ∉ scheme ++ [':'] ∧ '/' ∉ userInfo (login scheme) ++ "github.com".toList := by
  simp only [schemes, List.mem_cons, List.not_mem_nil, or_false] at hscheme
  rcases hscheme with h | h | h | h | h <;> subst h <;> decide

section

variable {W : UrlCrate} (hW : W.FollowsStandard) {user repo : Text} (hu : Segment user)
  (hr : Segment repo) {scheme : Text} (hscheme : scheme ∈ schemes)
include hW hu hr hscheme

theorem parseUrlOrSshCase_absoluteUrl :
    W.parseUrlOrSshCase (absoluteUrl scheme (login scheme) (pathOf user repo)) =
      .ok (some (newGithub [] user (stripDotGit repo))) := by
  obtain ⟨url, hparse, hscheme', hname, hhost, hpath⟩ := hW scheme hscheme (login scheme)
    (by rw [login]; split_ifs <;> simp) [user, repo] (by simp) (by simpa using ⟨hu, hr⟩)
  rw [intercalate_pair, ← pathOf] at hparse hpath
  rw [UrlCrate.parseUrlOrSshCase, tryParseGitSshFormat, (isPrefixOf?_absoluteUrl hscheme _).1, hparse]
  exact parseUrl_of_parts hu hr hhost hpath fun h => by rw [hname, login, if_pos (hscheme' ▸ h)]

theorem deserialize_absoluteUrl :
    W.deserializeRepoInferTypeStr (absoluteUrl scheme (login scheme) (pathOf user repo)) =
      .ok (some (newGithub [] user (stripDotGit repo))) := by
  have hpieces : absoluteUrl scheme (login scheme) (pathOf user repo) = ['/'].intercalate
      [scheme ++ [':'], [], userInfo (login scheme) ++ "github.com".toList, user, repo] := by
    simp [absoluteUrl, pathOf, List.intercalate_cons_cons]
  have hslash : ∀ p ∈ [scheme ++ [':'], [], userInfo (login scheme) ++ "github.com".toList, user,
      repo], '/' ∉ p := by
    obtain ⟨h1, h3⟩ := slash_not_mem_scheme hscheme
    simp only [List.forall_mem_cons]
    exact ⟨h1, by simp, h3, hu.slash_not_mem, hr.slash_not_mem, by simp⟩
  have hshort : tryParseUserRepoShorthand (absoluteUrl scheme (login scheme) (pathOf user repo)) =
      none := by
    rw [hpieces]
    exact tryParseUserRepoShorthand_intercalate (by simp) hslash (by simp)
  have hlen : ¬(((absoluteUrl scheme (login scheme) (pathOf user repo)).splitOn '/').length = 3 ∧
      "github.com/".toList.isPrefixOf (absoluteUrl scheme (login scheme) (pathOf user repo)) = true) := by
    rw [hpieces, List.splitOn_intercalate '/' hslash (by simp)]
    simp
  rw [deserialize_of_not_shorthand (noBeginning_absoluteUrl hscheme _) hshort, UrlCrate.parseMended,
    (isPrefixOf?_absoluteUrl hscheme _).2, if_neg hlen]
  exact parseUrlOrSshCase_absoluteUrl hW hu hr hscheme

end

/-! ## The other forms -/

section

variable {user repo : Text} (hu : Segment user) (hr : Segment repo) (W : UrlCrate)
include hu hr

theorem deserialize_pathOf : W.deserializeRepoInferTypeStr (pathOf user repo) =
    .ok (some (newGithub [] user (stripDotGit repo))) := by
  have hnone (pre : Text) (hpre : ':' ∈ pre) : pre.isPrefixOf? (pathOf user repo) = none :=
    isPrefixOf?_eq_none hpre (colon_not_mem_pathOf hu hr)
  exact deserialize_of_shorthand ⟨hnone _ (by decide), hnone _ (by decide), hnone _ (by decide),
    hnone _ (by decide)⟩ (tryParseUserRepoShorthand_pathOf hu hr)

theorem deserialize_githubPrefix :
    W.deserializeRepoInferTypeStr ("github:".toList ++ pathOf user repo) =
      .ok (some (newGithub [] user (stripDotGit repo))) := by
  rw [UrlCrate.deserializeRepoInferTypeStr, List.isPrefixOf?_eq_some_iff_append_eq.mpr rfl]
  exact congrArg _ (parseUserRepo_pathOf hu hr)

theorem deserialize_ssh :
    W.deserializeRepoInferTypeStr ("git@github.com:".toList ++ pathOf user repo) =
      .ok (some (newGithub [] user (stripDotGit repo))) := by
  have hsplit : ("git@github.com:".toList ++ pathOf user repo).splitOn '/' =
      ["git@github.com:".toList ++ user, repo] := by
    rw [pathOf, ← List.append_assoc, ← intercalate_pair]
    apply List.splitOn_intercalate
    · simp [hu.slash_not_mem, hr.slash_not_mem]
    · simp
  have hshort : tryParseUserRepoShorthand ("git@github.com:".toList ++ pathOf user repo) = none := by
    rw [tryParseUserRepoShorthand, hsplit]
    simp [hasColonOrAt]
  have hssh : tryParseGitSshFormat ("git@github.com:".toList ++ pathOf user repo) =
      some ("github.com".toList, pathOf user repo) := by
    have hstart : "git@github.com:".toList ++ pathOf user repo =
        "git@".toList ++ ("github.com".toList ++ ':' :: pathOf user repo) := rfl
    have hcolon : ("github.com".toList ++ ':' :: pathOf user repo).splitOn ':' =
        ["github.com".toList, pathOf user repo] := by
      rw [← intercalate_pair]
      apply List.splitOn_intercalate
      · simp [colon_not_mem_pathOf hu hr]
      · simp
    exact tryParseGitSshFormat_of_parts (List.isPrefixOf?_eq_some_iff_append_eq.mpr hstart.symm)
      hcolon rfl (by simp [hasColonOrAt, colon_not_mem_pathOf hu hr, at_not_mem_pathOf hu hr])
  rw [deserialize_of_not_shorthand ⟨rfl, rfl, rfl, rfl⟩ hshort, UrlCrate.parseMended, show "https://github.com:".toList.isPrefixOf?
    ("git@github.com:".toList ++ pathOf user repo) = none from rfl, if_neg (by simp [hsplit]),
    UrlCrate.parseUrlOrSshCase, hssh]
  exact congrArg _ (parseUserRepo_pathOf hu hr)

end

section

variable {W : UrlCrate} (hW : W.FollowsStandard) {user repo : Text} (hu : Segment user)
  (hr : Segment repo)
include hW hu hr

theorem parseUrlOrSshCase_https :
    W.parseUrlOrSshCase ("https://github.com/".toList ++ pathOf user repo) =
      .ok (some (newGithub [] user (stripDotGit repo))) :=
  parseUrlOrSshCase_absoluteUrl hW hu hr (show "https".toList ∈ schemes by simp [schemes])

theorem deserialize_colon :
    W.deserializeRepoInferTypeStr ("https://github.com:".toList ++ pathOf user repo) =
      .ok (some (newGithub [] user (stripDotGit repo))) := by
  have hpieces : "https://github.com:".toList ++ pathOf user repo =
      ['/'].intercalate ["https:".toList, [], "github.com:".toList ++ user, repo] := by
    simp [pathOf, List.intercalate_cons_cons]
  have hshort : tryParseUserRepoShorthand ("https://github.com:".toList ++ pathOf user repo) =
      none := by
    rw [hpieces]
    exact tryParseUserRepoShorthand_intercalate (by simp)
      (by simp [hu.slash_not_mem, hr.slash_not_mem]) (by simp)
  rw [deserialize_of_not_shorthand ⟨rfl, rfl, rfl, rfl⟩ hshort, UrlCrate.parseMended,
    List.isPrefixOf?_eq_some_iff_append_eq.mpr rfl]
  exact parseUrlOrSshCase_https hW hu hr

theorem deserialize_noScheme :
    W.deserializeRepoInferTypeStr ("github.com/".toList ++ pathOf user repo) =
      .ok (some (newGithub [] user (stripDotGit repo))) := by
  have hpieces : "github.com/".toList ++ pathOf user repo =
      ['/'].intercalate ["github.com".toList, user, repo] := by
    simp [pathOf, List.intercalate_cons_cons]
  have hslash : ∀ p ∈ ["github.com".toList, user, repo], '/' ∉ p := by
    simp [hu.slash_not_mem, hr.slash_not_mem]
  have hshort : tryParseUserRepoShorthand ("github.com/".toList ++ pathOf user repo) = none := by
    rw [hpieces]
    exact tryParseUserRepoShorthand_intercalate (by simp) hslash (by simp)
  have hthree : (("github.com/".toList ++ pathOf user repo).splitOn '/').length = 3 ∧
      "github.com/".toList.isPrefixOf ("github.com/".toList ++ pathOf user repo) = true := by
    constructor
    · rw [hpieces, List.splitOn_intercalate '/' hslash (by simp)]
      rfl
    · rfl
  rw [deserialize_of_not_shorthand ⟨rfl, rfl, rfl, rfl⟩ hshort, UrlCrate.parseMended, show "https://github.com:".toList.isPrefixOf?
    ("github.com/".toList ++ pathOf user repo) = none from rfl, if_pos hthree,
    List.isPrefixOf?_eq_some_iff_append_eq.mpr rfl]
  exact parseUrlOrSshCase_https hW hu hr

theorem deserialize_spellings {x : Text} (hx : x ∈ spellings user repo) :
    W.deserializeRepoInferTypeStr x = .ok (some (newGithub [] user (stripDotGit repo))) := by
  have habsolute (scheme : Text) (hscheme : scheme ∈ schemes) :=
    deserialize_absoluteUrl hW hu hr hscheme
  simp only [spellings, List.mem_cons, List.not_mem_nil, or_false] at hx
  rcases hx with h | h | h | h | h | h | h | h | h | h <;> subst h
  · exact deserialize_pathOf hu hr W
  · exact deserialize_githubPrefix hu hr W
  · exact habsolute "https".toList (by simp [schemes])
  · exact habsolute "http".toList (by simp [schemes])
  · exact habsolute "git".toList (by simp [schemes])
  · exact habsolute "git+https".toList (by simp [schemes])
  · exact habsolute "git+ssh".toList (by simp [schemes])
  · exact deserialize_ssh hu hr W
  · exact deserialize_colon hW hu hr
  · exact deserialize_noScheme hW hu hr

end

/-- Every spelling of a GitHub repository is read as the repository. -/
theorem spellings_agree {W : UrlCrate} (hW : W.FollowsStandard) {user repo : Text}
    (hu : Segment user) (hr : Segment repo) (hgit : ¬".git".toList <:+ repo) :
    ∀ x ∈ spellings user repo ++ spellings user (repo ++ ".git".toList),
      W.deserializeRepoInferTypeStr x = .ok (some (newGithub [] user repo)) := by
  intro x hx
  rcases List.mem_append.mp hx with hx | hx
  · have h := deserialize_spellings hW hu hr hx
    rwa [stripDotGit_of_not hgit] at h
  · have h := deserialize_spellings hW hu hr.append_dotGit hx
    rwa [stripDotGit_append] at h

/-- A reader of the URLs of github.com, with or without the user `git`. -/
def githubUrls : UrlCrate where
  Url := Text × Text × Text
  parse x := (schemes.product [[], "git".toList]).findSome? fun (scheme, user) =>
    ((absoluteUrl scheme user []).isPrefixOf? x).map fun path => (scheme, user, path)
  scheme url := url.1
  hostStr _ := some "github.com".toList
  username url := url.2.1
  path url := '/' :: url.2.2
  setPath url path := (url.1, url.2.1, path)
  toText url := absoluteUrl url.1 url.2.1 url.2.2

theorem followsStandard_githubUrls : githubUrls.FollowsStandard := by
  intro scheme hscheme user huser segments _ _
  generalize ['/'].intercalate segments = path
  refine ⟨(scheme, user, path), ?_, rfl, rfl, rfl, rfl⟩
  simp only [schemes, List.mem_cons, List.not_mem_nil, or_false] at hscheme huser
  rcases hscheme with h | h | h | h | h <;> subst h <;>
    rcases huser with h | h <;> subst h <;> rfl

theorem segment_of_all {s : Text} (hne : s ≠ []) (hs : s.all isNameChar = true)
    (hdot : s ≠ ".".toList) (hdots : s ≠ "..".toList) : Segment s :=
  ⟨hne, List.all_eq_true.mp hs, hdot, hdots⟩

theorem spellings_agree_cacache :
    (spellings "npm".toList "cacache".toList ++
        spellings "npm".toList ("cacache".toList ++ ".git".toList)).map
          githubUrls.deserializeRepoInferTypeStr =
      List.replicate 20 (.ok (some (newGithub [] "npm".toList "cacache".toList))) := by
  rw [List.eq_replicate_iff]
  constructor
  · decide
  · rw [List.forall_mem_map]
    exact spellings_agree followsStandard_githubUrls
      (segment_of_all (by decide) (by decide) (by decide) (by decide))
      (segment_of_all (by decide) (by decide) (by decide) (by decide)) (by decide)

end NpmFollower.DiffLogBuilder
