import Mathlib

/-! # Triples for programs with state and exceptions

A triple bounds both ends of a program: the results and states it can return
with, and the errors it can fail with. The rules follow the program.
-/

namespace Hoare

variable {σ ε α β : Type}

section Eval

variable (s : σ)

theorem bind_apply (x : StateT σ (Except ε) α) (f : α → StateT σ (Except ε) β) :
    (x >>= f) s = match x s with
      | .ok (a, s') => f a s'
      | .error e => .error e := by
  change (do let (a, s') ← x s; f a s' : Except ε (β × σ)) = _
  cases x s <;> rfl

theorem pure_apply (a : α) : (pure a : StateT σ (Except ε) α) s = .ok (a, s) := rfl

theorem throw_apply (e : ε) : (throw e : StateT σ (Except ε) α) s = .error e := rfl

theorem get_apply : (get : StateT σ (Except ε) σ) s = .ok (s, s) := rfl

theorem set_apply (s' : σ) : (set s' : StateT σ (Except ε) PUnit) s = .ok (⟨⟩, s') := rfl

theorem modify_apply (f : σ → σ) : (modify f : StateT σ (Except ε) PUnit) s = .ok (⟨⟩, f s) := rfl

theorem mapM_cons_apply {γ : Type} (f : γ → StateT σ (Except ε) α) (c : γ) (l : List γ) :
    (c :: l).mapM f s = match f c s with
      | .ok (a, s') => match l.mapM f s' with
        | .ok (as, s'') => .ok (a :: as, s'')
        | .error e => .error e
      | .error e => .error e := by
  rw [List.mapM_cons, bind_apply]
  cases f c s with
  | error e => rfl
  | ok r =>
    dsimp only
    rw [bind_apply]
    cases l.mapM f r.2 <;> rfl

/-- What a run returns, from what is computed of it. -/
theorem exists_ok_of_toOption {γ : Type} {r : Except ε α} {f : α → γ} {c : γ}
    (h : r.toOption.map f = some c) : ∃ a, r = .ok a ∧ f a = c := by
  cases r with
  | error e => cases h
  | ok a => exact ⟨a, rfl, Option.some.inj h⟩

end Eval

/-- From every state in `P` the program returns in `Q` or fails with an error in `F`. -/
def Triple (P : σ → Prop) (x : StateT σ (Except ε) α) (Q : α → σ → Prop) (F : ε → Prop) : Prop :=
  ∀ s, P s → match x s with
    | .ok (a, s') => Q a s'
    | .error e => F e

namespace Triple

variable {P P' : σ → Prop} {Q Q' : α → σ → Prop} {R : β → σ → Prop} {F F' : ε → Prop}
  {x : StateT σ (Except ε) α}

theorem of_ok (h : Triple P x Q F) {s s' : σ} {a : α} (hs : P s) (hx : x s = .ok (a, s')) :
    Q a s' := by
  have hrun := h s hs
  rwa [hx] at hrun

theorem of_error (h : Triple P x Q F) {s : σ} {e : ε} (hs : P s) (hx : x s = .error e) : F e := by
  have hrun := h s hs
  rwa [hx] at hrun

theorem conseq (h : Triple P x Q F) (hP : ∀ s, P' s → P s) (hQ : ∀ a s, Q a s → Q' a s)
    (hF : ∀ e, F e → F' e) : Triple P' x Q' F' := by
  intro s hs
  have hrun := h s (hP s hs)
  cases hx : x s with
  | ok r =>
    rw [hx] at hrun
    exact hQ _ _ hrun
  | error e =>
    rw [hx] at hrun
    exact hF e hrun

theorem pre (h : Triple P x Q F) (hP : ∀ s, P' s → P s) : Triple P' x Q F :=
  h.conseq hP (fun _ _ h => h) fun _ h => h

theorem post (h : Triple P x Q F) (hQ : ∀ a s, Q a s → Q' a s) : Triple P x Q' F :=
  h.conseq (fun _ h => h) hQ fun _ h => h

/-- What is known of the start besides the state. -/
theorem of_and {p : Prop} (h : p → Triple P x Q F) : Triple (fun s => P s ∧ p) x Q F :=
  fun s hs => h hs.2 s hs.1

/-- A triple for every start is a triple that may speak of the start. -/
theorem of_forall (h : ∀ s₀, P s₀ → Triple (fun s => s = s₀) x Q F) : Triple P x Q F :=
  fun s hs => h s hs s rfl

theorem pure {a : α} (h : ∀ s, P s → Q a s) :
    Triple P (Pure.pure a : StateT σ (Except ε) α) Q F :=
  fun s hs => h s hs

theorem throw {e : ε} (h : ∀ s, P s → F e) :
    Triple P (MonadExcept.throw e : StateT σ (Except ε) α) Q F :=
  fun s hs => h s hs

theorem bind {f : α → StateT σ (Except ε) β} (hx : Triple P x Q F)
    (hf : ∀ a, Triple (Q a) (f a) R F) : Triple P (x >>= f) R F := by
  intro s hs
  have hrun := hx s hs
  rw [bind_apply]
  cases hxs : x s with
  | ok r =>
    rw [hxs] at hrun
    exact hf r.1 r.2 hrun
  | error e =>
    rw [hxs] at hrun
    exact hrun

theorem get {Q : σ → σ → Prop} (h : ∀ s, P s → Q s s) :
    Triple P (MonadState.get : StateT σ (Except ε) σ) Q F :=
  fun s hs => h s hs

theorem set {s' : σ} {Q : PUnit → σ → Prop} (h : ∀ s, P s → Q ⟨⟩ s') :
    Triple P (MonadState.set s' : StateT σ (Except ε) PUnit) Q F :=
  fun s hs => h s hs

theorem modifyState {f : σ → σ} {Q : PUnit → σ → Prop} (h : ∀ s, P s → Q ⟨⟩ (f s)) :
    Triple P (modify f : StateT σ (Except ε) PUnit) Q F :=
  fun s hs => h s hs

/-- A loop keeps an invariant that may speak of what is done and what has come of it. -/
theorem mapM {γ : Type} {f : γ → StateT σ (Except ε) α} (l : List γ)
    (I : List γ → List α → σ → Prop)
    (hf : ∀ done c rest out, l = done ++ c :: rest →
      Triple (I done out) (f c) (fun a => I (done ++ [c]) (out ++ [a])) F) :
    Triple (I [] []) (l.mapM f) (fun out => I l out) F := by
  have hrest : ∀ done rest out, l = done ++ rest →
      Triple (I done out) (rest.mapM f) (fun out' => I l (out ++ out')) F := by
    intro done rest
    induction rest generalizing done with
    | nil =>
      intro out hl
      rw [List.mapM_nil]
      refine Triple.pure fun s hs => ?_
      rw [hl, List.append_nil, List.append_nil]
      exact hs
    | cons c rest ih =>
      intro out hl
      rw [List.mapM_cons]
      refine Triple.bind (hf done c rest out hl) fun a => ?_
      refine Triple.bind (ih (done ++ [c]) (out ++ [a]) (by simp [hl])) fun out' => ?_
      refine Triple.pure fun s hs => ?_
      rwa [List.append_assoc] at hs
  exact hrest [] l [] rfl

theorem forM {γ : Type} {f : γ → StateT σ (Except ε) PUnit} (l : List γ) (I : List γ → σ → Prop)
    (hf : ∀ done c rest, l = done ++ c :: rest →
      Triple (I done) (f c) (fun _ => I (done ++ [c])) F) :
    Triple (I []) (l.forM f) (fun _ => I l) F := by
  have hrest : ∀ done rest, l = done ++ rest → Triple (I done) (rest.forM f) (fun _ => I l) F := by
    intro done rest
    induction rest generalizing done with
    | nil =>
      intro hl
      rw [hl, List.append_nil]
      exact Triple.pure fun s hs => hs
    | cons c rest ih =>
      intro hl
      exact Triple.bind (hf done c rest hl) fun _ => ih (done ++ [c]) (by simp [hl])
  exact hrest [] l rfl

end Triple

/-- From every state in `I` the program returns in `I` or fails. -/
def Preserves (I : σ → Prop) (x : StateT σ (Except ε) α) : Prop :=
  Triple I x (fun _ => I) fun _ => True

namespace Preserves

variable {I : σ → Prop} {x : StateT σ (Except ε) α}

theorem pure {a : α} : Preserves I (Pure.pure a : StateT σ (Except ε) α) :=
  Triple.pure fun _ h => h

theorem throw {e : ε} : Preserves I (MonadExcept.throw e : StateT σ (Except ε) α) :=
  Triple.throw fun _ _ => trivial

theorem get : Preserves I (MonadState.get : StateT σ (Except ε) σ) := Triple.get fun _ h => h

theorem modifyState {f : σ → σ} (h : ∀ s, I s → I (f s)) :
    Preserves I (modify f : StateT σ (Except ε) PUnit) :=
  Triple.modifyState h

theorem bind {f : α → StateT σ (Except ε) β} (hx : Preserves I x) (hf : ∀ a, Preserves I (f a)) :
    Preserves I (x >>= f) :=
  Triple.bind hx hf

theorem mapM {γ : Type} {f : γ → StateT σ (Except ε) α} {l : List γ} (hf : ∀ c, Preserves I (f c)) :
    Preserves I (l.mapM f) :=
  Triple.mapM l (fun _ _ => I) fun _ c _ _ _ => hf c

theorem forM {γ : Type} {f : γ → StateT σ (Except ε) PUnit} {l : List γ}
    (hf : ∀ c, Preserves I (f c)) : Preserves I (l.forM f) :=
  Triple.forM l (fun _ => I) fun _ c _ _ => hf c

/-- An invariant, with what is known of the errors from every state. -/
theorem with_errors {F : ε → Prop} (h : Preserves I x)
    (hF : Triple (fun _ => True) x (fun _ _ => True) F) : Triple I x (fun _ => I) F := by
  intro s hs
  cases hx : x s with
  | ok r => exact h.of_ok hs hx
  | error e => exact hF.of_error trivial hx

end Preserves

end Hoare
