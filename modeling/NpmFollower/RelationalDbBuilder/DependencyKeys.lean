import NpmFollower.DiffLogBuilder.Deserialize
import NpmFollower.PostgresDb.Dependencies

/-! # The keys of dependencies

The digest that a row of dependencies is found by is made of the name and the
text of the raw spec, with nothing in between. Two dependencies share it also
where one name goes on with the front of the other's text.
-/

namespace NpmFollower.RelationalDbBuilder

open Std PostgresDb

/-- A text that is cut twice is cut at two places, with a piece between them. -/
theorem append_eq_append_iff {a b c d : String} :
    a ++ c = b ++ d ↔ (∃ front, b = a ++ front ∧ c = front ++ d) ∨
      ∃ front, a = b ++ front ∧ d = front ++ c := by
  simp only [String.ext_iff, String.toList_append]
  rw [List.append_eq_append_iff]
  constructor
  · rintro (⟨front, hb, hc⟩ | ⟨front, ha, hd⟩)
    · exact .inl ⟨String.ofList front, by simpa using hb, by simpa using hc⟩
    · exact .inr ⟨String.ofList front, by simpa using ha, by simpa using hd⟩
  · rintro (⟨front, hb, hc⟩ | ⟨front, ha, hd⟩)
    · exact .inl ⟨front.toList, hb, hc⟩
    · exact .inr ⟨front.toList, ha, hd⟩

section Keys

variable (D : Digests)

/-- The digest of the row of a dependency. -/
def keyOf (dep : String × Spec) : String := D.sha256 (dep.1 ++ D.display dep.2.raw)

/-- The same name and the same JSON value. -/
def SameDependency (a b : String × Spec) : Prop := a.1 = b.1 ∧ (a.2.raw == b.2.raw) = true

/-- The digests of two new rows agree exactly when their dependencies do. -/
def KeyExact (a b : String × Spec) : Prop :=
  ∀ dst dst' t t', (NewDependency.create D a.1 dst a.2.raw a.2.parsed t).md5digestWithVersion =
    (NewDependency.create D b.1 dst' b.2.raw b.2.parsed t').md5digestWithVersion ↔
      SameDependency a b

/-- The name of `b` is the one of `a` with the front of its text, and the rest is the text of `b`. -/
def Continues (a b : String × Spec) : Prop :=
  ∃ front, front ≠ "" ∧ b.1 = a.1 ++ front ∧ D.display a.2.raw = front ++ D.display b.2.raw

/-- Neither dependency continues the other, and a value that both have has one text. -/
structure KeptApart (a b : String × Spec) : Prop where
  left : ¬Continues D a b
  right : ¬Continues D b a
  text : SameDependency a b → D.display a.2.raw = D.display b.2.raw

variable {D} {a b : String × Spec}

theorem KeptApart.of_text (h : KeptApart D a b)
    (htext : a.1 ++ D.display a.2.raw = b.1 ++ D.display b.2.raw) :
    a.1 = b.1 ∧ D.display a.2.raw = D.display b.2.raw := by
  rcases append_eq_append_iff.mp htext with ⟨front, hname, hdisplay⟩ | ⟨front, hname, hdisplay⟩
  · have hempty : front = "" := by
      by_contra hne
      exact h.left ⟨front, hne, hname, hdisplay⟩
    subst hempty
    exact ⟨by simpa using hname.symm, by simpa using hdisplay⟩
  · have hempty : front = "" := by
      by_contra hne
      exact h.right ⟨front, hne, hname, hdisplay⟩
    subst hempty
    exact ⟨by simpa using hname, by simpa using hdisplay.symm⟩

theorem Continues.text (h : Continues D a b) :
    a.1 ++ D.display a.2.raw = b.1 ++ D.display b.2.raw := by
  obtain ⟨front, -, hname, hdisplay⟩ := h
  rw [hname, hdisplay, String.append_assoc]

theorem Continues.name_ne (h : Continues D a b) : a.1 ≠ b.1 := by
  obtain ⟨front, hne, hname, -⟩ := h
  intro heq
  rw [heq, String.ext_iff, String.toList_append, List.self_eq_append_right] at hname
  exact hne (String.ext_iff.mpr hname)

variable (hsha : Function.Injective D.sha256)

include hsha

/-- The key is exact on two dependencies if and only if they are kept apart. -/
theorem keyExact_iff
    (hdisplay : D.display a.2.raw = D.display b.2.raw → (a.2.raw == b.2.raw) = true) :
    KeyExact D a b ↔ KeptApart D a b := by
  have hkey (dst dst' t t') : ((NewDependency.create D a.1 dst a.2.raw a.2.parsed
      t).md5digestWithVersion = (NewDependency.create D b.1 dst' b.2.raw b.2.parsed
        t').md5digestWithVersion) ↔ a.1 ++ D.display a.2.raw = b.1 ++ D.display b.2.raw :=
    hsha.eq_iff
  have hexact : KeyExact D a b ↔
      (a.1 ++ D.display a.2.raw = b.1 ++ D.display b.2.raw ↔ SameDependency a b) :=
    ⟨fun h => (hkey none none .prod .prod).symm.trans (h none none .prod .prod),
      fun h dst dst' t t' => (hkey dst dst' t t').trans h⟩
  rw [hexact]
  constructor
  · intro h
    refine ⟨fun hab => ?_, fun hba => ?_, fun hsame => ?_⟩
    · exact hab.name_ne (h.mp hab.text).1
    · exact hba.name_ne (h.mp hba.text.symm).1.symm
    · have htext := h.mpr hsame
      rw [hsame.1] at htext
      simpa [String.ext_iff] using htext
  · intro h
    constructor
    · intro htext
      obtain ⟨hname, htext⟩ := h.of_text htext
      exact ⟨hname, hdisplay htext⟩
    · intro hsame
      rw [hsame.1, h.text hsame]

end Keys

/-- Specs that have been read from values with one text have been parsed alike. -/
theorem parsed_eq_of_deserializeSpec {P : DiffLogBuilder.Parsers} {s t : Spec}
    (hs : P.deserializeSpec s.raw = some s) (ht : P.deserializeSpec t.raw = some t)
    (hdisplay : P.display s.raw = P.display t.raw) (hbeq : (s.raw == t.raw) = true) :
    s.parsed = t.parsed := by
  obtain ⟨raw, parsed⟩ := s
  obtain ⟨raw', parsed'⟩ := t
  change Value.beq raw raw' = true at hbeq
  dsimp only at hs ht hdisplay ⊢
  cases raw with
  | string text =>
    cases raw' with
    | string text' =>
      rw [Value.beq, beq_iff_eq] at hbeq
      subst hbeq
      exact congrArg Spec.parsed (Option.some.inj (hs.symm.trans ht))
    | _ => simp [Value.beq] at hbeq
  | _ =>
    cases raw' with
    | string text' => simp [Value.beq] at hbeq
    | _ =>
      simp only [DiffLogBuilder.Parsers.deserializeSpec, Option.some.injEq, Spec.mk.injEq,
        true_and] at hs ht
      rw [← hs, ← ht, hdisplay]

end NpmFollower.RelationalDbBuilder
