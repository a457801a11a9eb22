import NpmFollower.Library.FiniteMap

/-! # Logs of keyed events

Events that each concern one key are folded key by key: a run over all keys is,
at each key, the run over the events of that key. A log of writes to a map is
decided at each key by the last event about it.
-/

namespace KeyedLog

open Std

section Run

variable {ε κ σ : Type} [DecidableEq κ] (key : ε → κ) (step : σ → ε → σ)

/-- The states of all keys after one event. -/
def stepAt (L : κ → σ) (e : ε) : κ → σ := Function.update L (key e) (step (L (key e)) e)

theorem foldl_stepAt_apply (L : κ → σ) (es : List ε) (k : κ) :
    es.foldl (stepAt key step) L k = (es.filter fun e => key e = k).foldl step (L k) := by
  induction es generalizing L with
  | nil => rfl
  | cons e es ih =>
    rw [List.foldl_cons, ih, List.filter_cons]
    by_cases he : key e = k
    · subst he
      simp [stepAt]
    · simp [stepAt, he, Function.update_of_ne (Ne.symm he)]

end Run

section Prefix

variable {ε σ : Type} (step : σ → ε → σ)

/-- What holds of all states of a run that begins with an event holds at its start and of all
states after the event. -/
theorem forall_prefix_cons {P : σ → Prop} {s : σ} {e : ε} {es : List ε} :
    (∀ pre, pre <+: e :: es → P (pre.foldl step s)) ↔
      P s ∧ ∀ pre, pre <+: es → P (pre.foldl step (step s e)) := by
  constructor
  · intro h
    exact ⟨h [] List.nil_prefix, fun pre hpre =>
      h (e :: pre) (List.cons_prefix_cons.mpr ⟨rfl, hpre⟩)⟩
  · rintro ⟨hs, h⟩ pre hpre
    cases pre with
    | nil => exact hs
    | cons e' pre =>
      obtain ⟨rfl, htail⟩ := List.cons_prefix_cons.mp hpre
      exact h pre htail

theorem forall_prefix_nil {P : σ → Prop} {s : σ} :
    (∀ pre, pre <+: ([] : List ε) → P (pre.foldl step s)) ↔ P s := by
  simp

end Prefix

section Ordered

variable {ε : Type} {R : List ε → ε → Prop}

/-- Each event stands after what it has to stand after. -/
def Ordered (R : List ε → ε → Prop) (es : List ε) : Prop :=
  ∀ before e after, es = before ++ e :: after → R before e

theorem ordered_nil : Ordered R [] := by
  intro before e after h
  cases before <;> cases h

theorem ordered_append {es es' : List ε} :
    Ordered R (es ++ es') ↔ Ordered R es ∧ Ordered (fun before => R (es ++ before)) es' := by
  constructor
  · intro h
    refine ⟨fun before e after hes => h before e (after ++ es') ?_, fun before e after hes => ?_⟩
    · rw [hes, List.append_assoc, List.cons_append]
    · exact h (es ++ before) e after (by rw [hes, List.append_assoc])
  · rintro ⟨h, h'⟩ before e after hes
    rcases List.append_eq_append_iff.mp hes with ⟨mid, rfl, hmid⟩ | ⟨mid, hmid, htail⟩
    · exact h' mid e after hmid
    · cases mid with
      | nil =>
        rw [List.append_nil] at hmid
        rw [← hmid, ← List.append_nil es]
        exact h' [] e after htail.symm
      | cons e' mid =>
        cases htail
        exact h before e mid hmid

theorem ordered_singleton {e : ε} : Ordered R [e] ↔ R [] e := by
  constructor
  · intro h
    exact h [] e [] rfl
  · intro h before e' after hes
    cases before with
    | nil =>
      cases hes
      exact h
    | cons e'' before => simp at hes

end Ordered

section Last

variable {ε κ β : Type} [DecidableEq κ] (key : ε → Option κ)

/-- The last event about a key. -/
def lastAbout (k : κ) (es : List ε) : Option ε := (es.filter fun e => key e = some k).getLast?

@[simp] theorem lastAbout_nil (k : κ) : lastAbout key k [] = none := rfl

theorem lastAbout_append (k : κ) (es es' : List ε) :
    lastAbout key k (es ++ es') = (lastAbout key k es').or (lastAbout key k es) := by
  rw [lastAbout, List.filter_append, List.getLast?_append]
  rfl

theorem lastAbout_congr {k : κ} {es es' : List ε}
    (h : es.filter (fun e => key e = some k) = es'.filter fun e => key e = some k) :
    lastAbout key k es = lastAbout key k es' := by
  rw [lastAbout, h, lastAbout]

variable [Ord κ] [TransOrd κ] [LawfulEqOrd κ] (value : ε → Option β)

/-- One event writes its value at its key, or erases the key. -/
def write (m : ExtTreeMap κ β compare) (e : ε) : ExtTreeMap κ β compare :=
  match key e, value e with
  | none, _ => m
  | some k, some b => m.insert k b
  | some k, none => m.erase k

theorem getElem?_write (m : ExtTreeMap κ β compare) (e : ε) (k : κ) :
    (write key value m e)[k]? = if key e = some k then value e else m[k]? := by
  unfold write
  cases hk : key e with
  | none => simp
  | some k' =>
    cases hv : value e with
    | some b => simp [FiniteMap.getElem?_insert]
    | none => simp [ExtTreeMap.getElem?_erase, LawfulEqCmp.compare_eq_iff_eq]

/-- After a log of writes the last event about a key decides what is found there. -/
theorem getElem?_foldl_write (m : ExtTreeMap κ β compare) (es : List ε) (k : κ) :
    (es.foldl (write key value) m)[k]? =
      match lastAbout key k es with
      | some e => value e
      | none => m[k]? := by
  induction es using List.reverseRecOn with
  | nil => rfl
  | append_singleton es e ih =>
    rw [List.foldl_append, List.foldl_cons, List.foldl_nil, getElem?_write, ih, lastAbout_append]
    by_cases he : key e = some k <;> simp [lastAbout, he]

end Last

end KeyedLog
