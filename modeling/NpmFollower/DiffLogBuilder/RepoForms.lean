import NpmFollower.DiffLogBuilder.RepoSpellings

/-! # Where a repository is read from

A text is read by its beginning, as a shorthand, in the ssh form of git or as a URL.
Each way leads to a path on a code host, to a gist or to a third party, and this is
all that a repository is read from.
-/

namespace NpmFollower.DiffLogBuilder

open PostgresDb

/-! ## Components -/

theorem not_mem_of_mem_splitOn {c : Char} {x piece : Text} (h : piece ∈ x.splitOn c) :
    c ∉ piece := by
  induction x generalizing piece with
  | nil =>
    rw [List.splitOn_nil, List.mem_singleton] at h
    simp [h]
  | cons a x ih =>
    rw [List.splitOn_cons_eq_if_modifyHead] at h
    split_ifs at h with hc
    · rcases List.mem_cons.mp h with rfl | h
      · simp
      · exact ih h
    · cases hsplit : x.splitOn c with
      | nil => exact absurd hsplit (List.splitOn_ne_nil c x)
      | cons first rest =>
        rw [hsplit, List.modifyHead_cons] at h
        rw [hsplit] at ih
        rcases List.mem_cons.mp h with rfl | h
        · have hne : c ≠ a := fun heq => hc (beq_iff_eq.mpr heq.symm)
          simp [hne, ih List.mem_cons_self]
        · exact ih (List.mem_cons_of_mem _ h)

/-- A text without the characters that a shorthand forbids. -/
structure Clean (s : Text) : Prop where
  slash : '/' ∉ s
  plain : hasColonOrAt s = false

theorem clean_iff {s : Text} : Clean s ↔ '/' ∉ s ∧ ':' ∉ s ∧ '@' ∉ s := by
  constructor
  · rintro ⟨hslash, hplain⟩
    simpa [hasColonOrAt, hslash] using hplain
  · rintro ⟨hslash, hcolon, hat⟩
    exact ⟨hslash, by simp [hasColonOrAt, hcolon, hat]⟩

theorem splitOn_pair {c : Char} {left right : Text} (hleft : c ∉ left) (hright : c ∉ right) :
    (left ++ c :: right).splitOn c = [left, right] := by
  rw [← intercalate_pair]
  apply List.splitOn_intercalate
  · simp [hleft, hright]
  · simp

theorem splitOn_eq_pair_iff {c : Char} {x left right : Text} :
    x.splitOn c = [left, right] ↔ x = left ++ c :: right ∧ c ∉ left ∧ c ∉ right := by
  constructor
  · intro h
    refine ⟨?_, not_mem_of_mem_splitOn (x := x) (by simp [h]),
      not_mem_of_mem_splitOn (x := x) (by simp [h])⟩
    rw [← intercalate_pair, ← h, List.intercalate_splitOn]
  · rintro ⟨rfl, hleft, hright⟩
    exact splitOn_pair hleft hright

theorem tryParseUserRepoShorthand_eq_some_iff {x user repo : Text} :
    tryParseUserRepoShorthand x = some (user, repo) ↔
      x = pathOf user repo ∧ Clean user ∧ Clean repo := by
  rw [tryParseUserRepoShorthand]
  constructor
  · intro h
    split at h
    · rename_i left right hsplit
      split_ifs at h with hplain
      cases h
      rw [Bool.or_eq_true, not_or, Bool.not_eq_true, Bool.not_eq_true] at hplain
      obtain ⟨hx, hleft, hright⟩ := splitOn_eq_pair_iff.mp hsplit
      exact ⟨hx, ⟨hleft, hplain.1⟩, hright, hplain.2⟩
    · cases h
  · rintro ⟨rfl, hu, hr⟩
    rw [pathOf, splitOn_pair hu.slash hr.slash]
    simp [hu.plain, hr.plain]

theorem tryParseUserRepoShorthand_of_mem {x : Text} (h : ':' ∈ x ∨ '@' ∈ x) :
    tryParseUserRepoShorthand x = none := by
  apply Option.eq_none_iff_forall_ne_some.mpr
  rintro ⟨user, repo⟩ hsome
  obtain ⟨rfl, hu, hr⟩ := tryParseUserRepoShorthand_eq_some_iff.mp hsome
  obtain ⟨-, hu⟩ := clean_iff.mp hu
  obtain ⟨-, hr⟩ := clean_iff.mp hr
  simp [pathOf, hu, hr] at h

theorem tryParseGitSshFormat_eq_some_iff {x host path : Text} :
    tryParseGitSshFormat x = some (host, path) ↔ x = "git@".toList ++ host ++ ':' :: path ∧
      hasColonOrAt host = false ∧ hasColonOrAt path = false := by
  have hcolon {s : Text} (h : hasColonOrAt s = false) : ':' ∉ s := by
    rw [hasColonOrAt, Bool.or_eq_false_iff] at h
    simpa using h.1
  constructor
  · intro h
    rw [tryParseGitSshFormat] at h
    split at h
    · rename_i rest hrest
      split at h
      · rename_i left right hsplit
        split_ifs at h with hplain
        cases h
        rw [Bool.or_eq_true, not_or, Bool.not_eq_true, Bool.not_eq_true] at hplain
        rw [List.isPrefixOf?_eq_some_iff_append_eq] at hrest
        rw [← hrest, (splitOn_eq_pair_iff.mp hsplit).1, List.append_assoc]
        exact ⟨rfl, hplain⟩
      · cases h
    · cases h
  · rintro ⟨rfl, hhost, hpath⟩
    rw [List.append_assoc]
    exact tryParseGitSshFormat_of_parts (List.isPrefixOf?_eq_some_iff_append_eq.mpr rfl)
      (splitOn_pair (hcolon hhost) (hcolon hpath)) hhost hpath

/-! ## Hosts -/

/-- The hosts whose repositories have a user and a name. -/
inductive Host where
  | github
  | bitbucket
  | gitlab
deriving DecidableEq

namespace Host

def domain : Host → Text
  | github => "github.com".toList
  | bitbucket => "bitbucket.org".toList
  | gitlab => "gitlab.com".toList

def beginning : Host → Text
  | github => "github:".toList
  | bitbucket => "bitbucket:".toList
  | gitlab => "gitlab:".toList

def new : Host → Text → Text → Text → RepoInfo
  | github => newGithub
  | bitbucket => newBitbucket
  | gitlab => newGitlab

def parsePath : Host → Text → Option RepoInfo
  | github => parseGithubPath
  | bitbucket => parseBitbucketPath
  | gitlab => parseGitlabPath

theorem hasColonOrAt_domain (host : Host) : hasColonOrAt host.domain = false := by
  cases host <;> decide

end Host

def gistDomain : Text := "gist.github.com".toList

def gistBeginning : Text := "gist:".toList

/-! ## The ways a text is read -/

/-- The text after a known broken URL of GitHub has been mended. -/
def mended (x : Text) : Text :=
  match "https://github.com:".toList.isPrefixOf? x with
  | some rest => "https://github.com/".toList ++ rest
  | none =>
    if (x.splitOn '/').length = 3 ∧ "github.com/".toList.isPrefixOf x then "https://".toList ++ x else x

theorem mended_of_at {x : Text} {c : Char} {rest : Text} (h : x = 'g' :: 'i' :: 't' :: c :: rest)
    (hc : c ≠ 'h') : mended x = x := by
  subst h
  rw [mended, if_neg]
  · rfl
  · simp [List.isPrefixOf, hc.symm]

/-- A text that is mended has become a URL of https. -/
theorem mended_cases (x : Text) : mended x = x ∨ ∃ rest, mended x = 'h' :: rest := by
  rw [mended]
  split
  · exact .inr ⟨_, rfl⟩
  · split_ifs
    · exact .inr ⟨_, rfl⟩
    · exact .inl rfl

namespace UrlCrate

variable (W : UrlCrate)

theorem parseMended_eq (x : Text) : W.parseMended x = W.parseUrlOrSshCase (mended x) := by
  rw [parseMended, mended]
  cases hcolon : "https://github.com:".toList.isPrefixOf? x with
  | some rest => rfl
  | none =>
    dsimp only
    split_ifs with hthree
    · cases hpre : "github.com/".toList.isPrefixOf? x with
      | some rest =>
        rw [List.isPrefixOf?_eq_some_iff_append_eq] at hpre
        rw [← hpre]
        rfl
      | none =>
        have hprefix := List.isPrefixOf_iff_prefix.mp hthree.2
        obtain ⟨rest, hrest⟩ := hprefix
        rw [List.isPrefixOf?_eq_some_iff_append_eq.mpr hrest] at hpre
        cases hpre
    · rfl

/-- The text is none of the shorthands. -/
structure NoShorthand (x : Text) : Prop where
  beginning : NoBeginning x
  shorthand : tryParseUserRepoShorthand x = none

/-- The text is read as this URL. -/
structure ReadsUrl (x : Text) (url : W.Url) : Prop where
  noShorthand : NoShorthand x
  noSsh : tryParseGitSshFormat (mended x) = none
  parsed : W.parse (mended x) = some url

/-- The URL has this host and this path, the slashes around it left out, and a user that the scheme
allows. -/
structure LeadsTo (url : W.Url) (host path : Text) : Prop where
  host : W.hostStr url = some host
  path : ∃ p, W.path url = '/' :: p ∧ (['/'].isSuffixOf? p).getD p = path
  user : W.scheme url = "git+ssh".toList → W.username url = "git".toList

/-- The ways a text is read, and what it is read as. -/
inductive Reading (x : Text) : Except String (Option RepoInfo) → Prop where
  | beginning (host : Host) (rest : Text) (hx : x = host.beginning ++ rest) :
      Reading x (.ok (parseUserRepo host.new rest))
  | gistBeginning (path : Text) (hx : x = gistBeginning ++ path) :
      Reading x ((parseGistPath path).map some)
  | shorthand {user repo : Text} (hx : tryParseUserRepoShorthand x = some (user, repo)) :
      Reading x (.ok (some (newGithub [] user (stripDotGit repo))))
  | ssh (host : Host) {path : Text} (hx : x = "git@".toList ++ host.domain ++ ':' :: path)
      (hpath : hasColonOrAt path = false) : Reading x (.ok (parseUserRepo host.new path))
  | sshGist {path : Text} (hx : x = "git@".toList ++ gistDomain ++ ':' :: path)
      (hpath : hasColonOrAt path = false) : Reading x ((parseGistPath path).map some)
  | url (host : Host) {u : W.Url} {path : Text} (hx : W.ReadsUrl x u)
      (hu : W.LeadsTo u host.domain path) : Reading x (.ok (host.parsePath path))
  | urlGist {u : W.Url} {path : Text} (hx : W.ReadsUrl x u) (hu : W.LeadsTo u gistDomain path) :
      Reading x ((parseGistPath path).map some)
  | thirdparty (u : Text) : Reading x (.ok (some (newThirdparty [] u)))
  | none : Reading x (.ok none)

variable {W} {x : Text}

theorem reading_url {u : W.Url} (hx : W.ReadsUrl x u) : W.Reading x (W.parseUrl u) := by
  rw [parseUrl]
  split
  · rename_i host urlPath hhost hpath
    rw [List.isPrefixOf?_eq_some_iff_append_eq] at hpath
    dsimp only
    by_cases hssh : W.scheme u = "git+ssh".toList ∧ W.username u ≠ "git".toList
    · rw [if_pos hssh]
      exact .none
    rw [if_neg hssh]
    have hleads : W.LeadsTo u host ((['/'].isSuffixOf? urlPath).getD urlPath) :=
      ⟨hhost, ⟨urlPath, hpath.symm, rfl⟩, fun h => by_contra fun hne => hssh ⟨h, hne⟩⟩
    split_ifs with hgithub hbitbucket hgitlab hgist hgit
    · subst hgithub
      exact .url .github hx hleads
    · subst hbitbucket
      exact .url .bitbucket hx hleads
    · subst hgitlab
      exact .url .gitlab hx hleads
    · subst hgist
      exact .urlGist hx hleads
    · exact .thirdparty _
    · exact .thirdparty _
  · exact .none

theorem reading_mended (hx : NoShorthand x) : W.Reading x (W.parseMended x) := by
  rw [parseMended_eq, parseUrlOrSshCase]
  cases hssh : tryParseGitSshFormat (mended x) with
  | none =>
    cases hurl : W.parse (mended x) with
    | none => exact .none
    | some u => exact reading_url ⟨hx, hssh, hurl⟩
  | some parts =>
    obtain ⟨host, path⟩ := parts
    obtain ⟨hform, -, hpath⟩ := tryParseGitSshFormat_eq_some_iff.mp hssh
    have hsame : x = "git@".toList ++ host ++ ':' :: path := by
      rcases mended_cases x with h | ⟨rest, h⟩
      · rw [← hform, h]
      · rw [h] at hform
        cases hform
    dsimp only
    split_ifs with hgithub hbitbucket hgitlab hgist
    · subst hgithub
      exact .ssh .github hsame hpath
    · subst hbitbucket
      exact .ssh .bitbucket hsame hpath
    · subst hgitlab
      exact .ssh .gitlab hsame hpath
    · subst hgist
      exact .sshGist hsame hpath
    · exact .thirdparty _

theorem reading (x : Text) : W.Reading x (W.deserializeRepoInferTypeStr x) := by
  have heq {pre rest : Text} (h : pre.isPrefixOf? x = some rest) : x = pre ++ rest :=
    (List.isPrefixOf?_eq_some_iff_append_eq.mp h).symm
  rw [deserializeRepoInferTypeStr]
  cases hgithub : "github:".toList.isPrefixOf? x with
  | some rest => exact .beginning .github rest (heq hgithub)
  | none =>
    cases hbitbucket : "bitbucket:".toList.isPrefixOf? x with
    | some rest => exact .beginning .bitbucket rest (heq hbitbucket)
    | none =>
      cases hgitlab : "gitlab:".toList.isPrefixOf? x with
      | some rest => exact .beginning .gitlab rest (heq hgitlab)
      | none =>
        cases hgist : "gist:".toList.isPrefixOf? x with
        | some rest => exact .gistBeginning rest (heq hgist)
        | none =>
          cases hshort : tryParseUserRepoShorthand x with
          | some parts => exact .shorthand hshort
          | none => exact reading_mended ⟨⟨hgithub, hbitbucket, hgitlab, hgist⟩, hshort⟩

/-! ## What each form is read as -/

theorem deserialize_beginning (host : Host) (rest : Text) :
    W.deserializeRepoInferTypeStr (host.beginning ++ rest) = .ok (parseUserRepo host.new rest) := by
  have hpre (pre : Text) : pre.isPrefixOf? (pre ++ rest) = some rest :=
    List.isPrefixOf?_eq_some_iff_append_eq.mpr rfl
  rw [deserializeRepoInferTypeStr]
  cases host with
  | github =>
    have hgithub : "github:".toList.isPrefixOf? (Host.github.beginning ++ rest) = some rest := hpre _
    rw [hgithub]
    rfl
  | bitbucket =>
    have hgithub : "github:".toList.isPrefixOf? (Host.bitbucket.beginning ++ rest) = none := rfl
    have hbitbucket : "bitbucket:".toList.isPrefixOf? (Host.bitbucket.beginning ++ rest) =
      some rest := hpre _
    rw [hgithub, hbitbucket]
    rfl
  | gitlab =>
    have hgithub : "github:".toList.isPrefixOf? (Host.gitlab.beginning ++ rest) = none := rfl
    have hbitbucket : "bitbucket:".toList.isPrefixOf? (Host.gitlab.beginning ++ rest) = none := rfl
    have hgitlab : "gitlab:".toList.isPrefixOf? (Host.gitlab.beginning ++ rest) = some rest := hpre _
    rw [hgithub, hbitbucket, hgitlab]
    rfl

theorem deserialize_gistBeginning (path : Text) :
    W.deserializeRepoInferTypeStr (gistBeginning ++ path) = (parseGistPath path).map some := by
  have hpre : "gist:".toList.isPrefixOf? ("gist:".toList ++ path) = some path :=
    List.isPrefixOf?_eq_some_iff_append_eq.mpr rfl
  rw [deserializeRepoInferTypeStr, gistBeginning, hpre]
  rfl

theorem deserialize_shorthand {user repo : Text} (hu : Clean user) (hr : Clean repo) :
    W.deserializeRepoInferTypeStr (pathOf user repo) =
      .ok (some (newGithub [] user (stripDotGit repo))) := by
  have hcolon : ':' ∉ pathOf user repo := by
    simp [pathOf, (clean_iff.mp hu).2.1, (clean_iff.mp hr).2.1]
  have hnone (pre : Text) (hpre : ':' ∈ pre) : pre.isPrefixOf? (pathOf user repo) = none :=
    isPrefixOf?_eq_none hpre hcolon
  exact deserialize_of_shorthand ⟨hnone _ (by decide), hnone _ (by decide), hnone _ (by decide),
    hnone _ (by decide)⟩ (tryParseUserRepoShorthand_eq_some_iff.mpr ⟨rfl, hu, hr⟩)

theorem deserialize_noShorthand (hx : NoShorthand x) :
    W.deserializeRepoInferTypeStr x = W.parseUrlOrSshCase (mended x) := by
  rw [deserialize_of_not_shorthand hx.beginning hx.shorthand, parseMended_eq]

theorem noShorthand_ssh (host path : Text) : NoShorthand ("git@".toList ++ host ++ ':' :: path) where
  beginning := ⟨rfl, rfl, rfl, rfl⟩
  shorthand := tryParseUserRepoShorthand_of_mem (.inr (by simp))

theorem deserialize_ssh {host path : Text} (hhost : hasColonOrAt host = false)
    (hpath : hasColonOrAt path = false) :
    W.deserializeRepoInferTypeStr ("git@".toList ++ host ++ ':' :: path) =
      if host = "github.com".toList then .ok (parseUserRepo newGithub path)
      else if host = "bitbucket.org".toList then .ok (parseUserRepo newBitbucket path)
      else if host = "gitlab.com".toList then .ok (parseUserRepo newGitlab path)
      else if host = "gist.github.com".toList then (parseGistPath path).map some
      else .ok (some (newThirdparty [] ("git@".toList ++ host ++ ':' :: path))) := by
  have hmended : mended ("git@".toList ++ host ++ ':' :: path) =
      "git@".toList ++ host ++ ':' :: path := mended_of_at rfl (by decide)
  rw [deserialize_noShorthand (noShorthand_ssh host path), hmended, parseUrlOrSshCase,
    tryParseGitSshFormat_eq_some_iff.mpr ⟨rfl, hhost, hpath⟩]

theorem deserialize_url {u : W.Url} (hx : W.ReadsUrl x u) :
    W.deserializeRepoInferTypeStr x = W.parseUrl u := by
  rw [deserialize_noShorthand hx.noShorthand, parseUrlOrSshCase, hx.noSsh, hx.parsed]

theorem parseUrl_of_leadsTo {u : W.Url} {host path : Text} (hu : W.LeadsTo u host path) :
    W.parseUrl u =
      if host = "github.com".toList then .ok (parseGithubPath path)
      else if host = "bitbucket.org".toList then .ok (parseBitbucketPath path)
      else if host = "gitlab.com".toList then .ok (parseGitlabPath path)
      else if host = "gist.github.com".toList then (parseGistPath path).map some
      else
        if W.scheme u = "git".toList then
          .ok (some (newThirdparty [] (replaceFirst "git://".toList "https://".toList
            (W.toText (W.setPath u (stripDotGit path))))))
        else .ok (some (newThirdparty [] (W.toText (W.setPath u (stripDotGit path))))) := by
  obtain ⟨p, hp, hpath⟩ := hu.path
  have hstrip : ['/'].isPrefixOf? (W.path u) = some p := by
    rw [hp]
    exact List.isPrefixOf?_eq_some_iff_append_eq.mpr rfl
  have hssh : ¬(W.scheme u = "git+ssh".toList ∧ W.username u ≠ "git".toList) :=
    fun h => h.2 (hu.user h.1)
  rw [parseUrl, hu.host, hstrip]
  dsimp only
  rw [if_neg hssh, hpath]

theorem parseUrl_of_host {u : W.Url} {host : Host} {path : Text} (hu : W.LeadsTo u host.domain path) :
    W.parseUrl u = .ok (host.parsePath path) := by
  rw [parseUrl_of_leadsTo hu]
  cases host with
  | github => exact if_pos rfl
  | bitbucket =>
    rw [if_neg (by decide)]
    exact if_pos rfl
  | gitlab =>
    rw [if_neg (by decide), if_neg (by decide)]
    exact if_pos rfl

end UrlCrate

end NpmFollower.DiffLogBuilder
