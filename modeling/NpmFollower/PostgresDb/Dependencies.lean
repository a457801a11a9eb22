import NpmFollower.PostgresDb.Versions

/-! # The table of dependencies

A row of `dependencies` is a package name with a spec, found by the digest of
both. Its counters say how often the live versions depend on it, by the type of
the dependency.
-/

namespace NpmFollower.PostgresDb

/-- The four counters of a row, or the changes to them. -/
structure FreqCounts where
  prodFreqCount : ℤ
  devFreqCount : ℤ
  peerFreqCount : ℤ
  optionalFreqCount : ℤ
deriving DecidableEq

/-- The range of `i64` and of `bigint`. -/
def inI64 (n : ℤ) : Bool := -(2 ^ 63) ≤ n && n < 2 ^ 63

namespace FreqCounts

def zero : FreqCounts := ⟨0, 0, 0, 0⟩

def get (c : FreqCounts) : DependencyType → ℤ
  | .prod => c.prodFreqCount
  | .dev => c.devFreqCount
  | .peer => c.peerFreqCount
  | .optional => c.optionalFreqCount

/-- The given number for one type and 0 for the others. -/
def single : DependencyType → ℤ → FreqCounts
  | .prod, n => ⟨n, 0, 0, 0⟩
  | .dev, n => ⟨0, n, 0, 0⟩
  | .peer, n => ⟨0, 0, n, 0⟩
  | .optional, n => ⟨0, 0, 0, n⟩

def sum (a b : FreqCounts) : FreqCounts where
  prodFreqCount := a.prodFreqCount + b.prodFreqCount
  devFreqCount := a.devFreqCount + b.devFreqCount
  peerFreqCount := a.peerFreqCount + b.peerFreqCount
  optionalFreqCount := a.optionalFreqCount + b.optionalFreqCount

def inRange (c : FreqCounts) : Bool :=
  inI64 c.prodFreqCount && inI64 c.devFreqCount && inI64 c.peerFreqCount &&
    inI64 c.optionalFreqCount

/-- A sum that overflows is a panic in Rust and an error in Postgres. -/
def add (a b : FreqCounts) : Option FreqCounts :=
  if (a.sum b).inRange then some (a.sum b) else none

@[simp] theorem get_zero (t : DependencyType) : zero.get t = 0 := by cases t <;> rfl

@[simp] theorem get_sum (a b : FreqCounts) (t : DependencyType) :
    (a.sum b).get t = a.get t + b.get t := by
  cases t <;> rfl

theorem get_single (t t' : DependencyType) (n : ℤ) :
    (single t n).get t' = if t = t' then n else 0 := by
  cases t <;> cases t' <;> rfl

theorem ext_get {a b : FreqCounts} (h : ∀ t, a.get t = b.get t) : a = b := by
  obtain ⟨p, d, e, o⟩ := a
  obtain ⟨p', d', e', o'⟩ := b
  obtain ⟨hp, hd, he, ho⟩ : p = p' ∧ d = d' ∧ e = e' ∧ o = o' :=
    ⟨h .prod, h .dev, h .peer, h .optional⟩
  rw [hp, hd, he, ho]

@[simp] theorem zero_sum (c : FreqCounts) : zero.sum c = c := ext_get fun t => by simp

theorem eq_sum_of_add {a b c : FreqCounts} (h : a.add b = some c) : c = a.sum b := by
  unfold add at h
  split_ifs at h
  exact (Option.some.inj h).symm

end FreqCounts

structure NewDependency where
  dstPackageName : String
  dstPackageIdIfExists : Option ℤ
  rawSpec : Value
  spec : ParsedSpec
  counts : FreqCounts
  md5digest : String
  md5digestWithVersion : String

structure Dependency extends NewDependency where
  id : ℤ

namespace Dependency

def markAsDelete (d : Dependency) (depType : DependencyType) : Dependency :=
  { d with counts := .single depType (-1) }

def markAsAdd (d : Dependency) (depType : DependencyType) : Dependency :=
  { d with counts := .single depType 1 }

def asNew (d : Dependency) : NewDependency := d.toNewDependency

/-- The row apart from its counters. -/
def fixed (d : Dependency) : Dependency := { d with counts := .zero }

end Dependency

/-- What the digests are made of: SHA-256 in hexadecimal, and the text of a JSON value. -/
structure Digests where
  sha256 : String → String
  display : Value → String

def NewDependency.create (D : Digests) (dstPackageName : String)
    (dstPackageIdIfExists : Option ℤ) (rawSpec : Value) (spec : ParsedSpec)
    (depType : DependencyType) : NewDependency where
  dstPackageName := dstPackageName
  dstPackageIdIfExists := dstPackageIdIfExists
  rawSpec := rawSpec
  spec := spec
  counts := .single depType 1
  md5digest := D.sha256 dstPackageName
  md5digestWithVersion := D.sha256 (dstPackageName ++ D.display rawSpec)

end NpmFollower.PostgresDb
