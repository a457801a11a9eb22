import NpmFollower.PostgresDb.CustomTypes

/-! # The repository of a version

A repository is a shorthand, a URL or the ssh form of git. The three code hosts
are read alike but for the form of a directory. Texts are lists of characters and
an error is a panic.
-/

namespace NpmFollower.DiffLogBuilder

open PostgresDb

abbrev Text := List Char

/-! ## The records -/

section RepoInfo

variable (dir user repo : Text)

def newGithub : RepoInfo where
  cloneableRepoUrl := String.ofList ("https://github.com/".toList ++ user ++ '/' :: repo)
  cloneableRepoDir := String.ofList dir
  vcs := .git
  hostInfo := .github (String.ofList user) (String.ofList repo)

def newBitbucket : RepoInfo where
  cloneableRepoUrl := String.ofList ("https://bitbucket.org/".toList ++ user ++ '/' :: repo)
  cloneableRepoDir := String.ofList dir
  vcs := .git
  hostInfo := .bitbucket (String.ofList user) (String.ofList repo)

def newGitlab : RepoInfo where
  cloneableRepoUrl :=
    String.ofList ("https://gitlab.com/".toList ++ user ++ '/' :: repo ++ ".git".toList)
  cloneableRepoDir := String.ofList dir
  vcs := .git
  hostInfo := .gitlab (String.ofList user) (String.ofList repo)

def newGist (id : Text) : RepoInfo where
  cloneableRepoUrl := String.ofList ("https://gist.github.com/".toList ++ id)
  cloneableRepoDir := ""
  vcs := .git
  hostInfo := .gist (String.ofList id)

def newThirdparty (url : Text) : RepoInfo where
  cloneableRepoUrl := String.ofList url
  cloneableRepoDir := String.ofList dir
  vcs := .git
  hostInfo := .thirdparty

end RepoInfo

/-! ## Shorthands -/

def hasColonOrAt (x : Text) : Bool := x.contains ':' || x.contains '@'

/-- The form `xxx/yyy`. -/
def tryParseUserRepoShorthand (x : Text) : Option (Text × Text) :=
  match x.splitOn '/' with
  | [left, right] =>
    if hasColonOrAt left || hasColonOrAt right then none else some (left, right)
  | _ => none

/-- The form `git@xxx:yyy`. -/
def tryParseGitSshFormat (x : Text) : Option (Text × Text) :=
  match "git@".toList.isPrefixOf? x with
  | some rest =>
    match rest.splitOn ':' with
    | [left, right] =>
      if hasColonOrAt left || hasColonOrAt right then none else some (left, right)
    | _ => none
  | none => none

def stripDotGit (repo : Text) : Text := (".git".toList.isSuffixOf? repo).getD repo

def parseGistPath (gistPath : Text) : Except String RepoInfo :=
  if gistPath.contains '/' then
    match tryParseUserRepoShorthand gistPath with
    | some (_, id) => .ok (newGist (stripDotGit id))
    | none => .error "called `Option::unwrap()` on a `None` value"
  else .ok (newGist (stripDotGit gistPath))

/-- A repository with nothing but its user and its name. -/
def parseUserRepo (new : Text → Text → Text → RepoInfo) (x : Text) : Option RepoInfo :=
  (tryParseUserRepoShorthand x).map fun (user, repo) => new [] user (stripDotGit repo)

/-! ## URLs -/

/-- The crate `url`. -/
structure UrlCrate where
  Url : Type
  parse : Text → Option Url
  scheme : Url → Text
  hostStr : Url → Option Text
  username : Url → Text
  path : Url → Text
  setPath : Url → Text → Url
  toText : Url → Text

/-- The path of a hosted repository: `user/repo`, or a directory in a tree, whose form is the
host's. A path of fewer than `minComps` components is bad, and so is one that `bad` holds of. -/
def parseHostedPath (new : Text → Text → Text → RepoInfo) (minComps : ℕ) (bad : List Text → Bool)
    (urlPath : Text) : Option RepoInfo :=
  match tryParseUserRepoShorthand urlPath with
  | some (user, repo) => some (new [] user (stripDotGit repo))
  | none =>
    let comps := urlPath.splitOn '/'
    if comps.length < minComps || bad comps then none
    else
      let user := comps.getD 0 []
      let repo := comps.getD 1 []
      -- the branch is the last component before the directory
      let dirPath := ['/'].intercalate (comps.drop minComps)
      some (new dirPath user (stripDotGit repo))

def parseGithubPath : Text → Option RepoInfo :=
  parseHostedPath newGithub 4 fun comps => comps.getD 2 [] != "tree".toList

def parseBitbucketPath : Text → Option RepoInfo :=
  parseHostedPath newBitbucket 4 fun comps => comps.getD 2 [] != "src".toList

def parseGitlabPath : Text → Option RepoInfo :=
  parseHostedPath newGitlab 5 fun comps =>
    comps.getD 2 [] != "-".toList && comps.getD 3 [] != "tree".toList

/-- `replacen(pattern, replacement, 1)` -/
def replaceFirst (pattern replacement : Text) : Text → Text
  | [] => if pattern = [] then replacement else []
  | c :: rest =>
    match pattern.isPrefixOf? (c :: rest) with
    | some tail => replacement ++ tail
    | none => c :: replaceFirst pattern replacement rest

namespace UrlCrate

variable (W : UrlCrate)

/-- A URL that has been parsed. -/
def parseUrl (repoUrl : W.Url) : Except String (Option RepoInfo) :=
  match W.hostStr repoUrl, ['/'].isPrefixOf? (W.path repoUrl) with
  | some host, some urlPath =>
    let urlPath := (['/'].isSuffixOf? urlPath).getD urlPath
    if W.scheme repoUrl = "git+ssh".toList ∧ W.username repoUrl ≠ "git".toList then .ok none
    else if host = "github.com".toList then .ok (parseGithubPath urlPath)
    else if host = "bitbucket.org".toList then .ok (parseBitbucketPath urlPath)
    else if host = "gitlab.com".toList then .ok (parseGitlabPath urlPath)
    else if host = "gist.github.com".toList then (parseGistPath urlPath).map some
    else
      let newUrl := W.toText (W.setPath repoUrl (stripDotGit urlPath))
      if W.scheme repoUrl = "git".toList then
        .ok (some (newThirdparty [] (replaceFirst "git://".toList "https://".toList newUrl)))
      else .ok (some (newThirdparty [] newUrl))
  | _, _ => .ok none

def parseUrlOrSshCase (urlOrSsh : Text) : Except String (Option RepoInfo) :=
  match tryParseGitSshFormat urlOrSsh with
  | some (host, path) =>
    if host = "github.com".toList then .ok (parseUserRepo newGithub path)
    else if host = "bitbucket.org".toList then .ok (parseUserRepo newBitbucket path)
    else if host = "gitlab.com".toList then .ok (parseUserRepo newGitlab path)
    else if host = "gist.github.com".toList then (parseGistPath path).map some
    else .ok (some (newThirdparty [] urlOrSsh))
  | none =>
    match W.parse urlOrSsh with
    | some repoUrl => W.parseUrl repoUrl
    | none => .ok none

/-- What is no shorthand: the known broken URLs of GitHub are mended first. -/
def parseMended (repoStr : Text) : Except String (Option RepoInfo) :=
  match "https://github.com:".toList.isPrefixOf? repoStr with
  | some rest => W.parseUrlOrSshCase ("https://github.com/".toList ++ rest)
  | none =>
    if (repoStr.splitOn '/').length = 3 ∧ "github.com/".toList.isPrefixOf repoStr then
      match "github.com/".toList.isPrefixOf? repoStr with
      | some rest => W.parseUrlOrSshCase ("https://github.com/".toList ++ rest)
      | none => .error "assertion failed: match_strip_start(&mut repo_str, \"github.com/\")"
    else W.parseUrlOrSshCase repoStr

def deserializeRepoInferTypeStr (repoStr : Text) : Except String (Option RepoInfo) :=
  match "github:".toList.isPrefixOf? repoStr with
  | some rest => .ok (parseUserRepo newGithub rest)
  | none =>
    match "bitbucket:".toList.isPrefixOf? repoStr with
    | some rest => .ok (parseUserRepo newBitbucket rest)
    | none =>
      match "gitlab:".toList.isPrefixOf? repoStr with
      | some rest => .ok (parseUserRepo newGitlab rest)
      | none =>
        match "gist:".toList.isPrefixOf? repoStr with
        | some rest => (parseGistPath rest).map some
        | none =>
          match tryParseUserRepoShorthand repoStr with
          | some (user, repo) => .ok (some (newGithub [] user (stripDotGit repo)))
          | none => W.parseMended repoStr

end UrlCrate

end NpmFollower.DiffLogBuilder
