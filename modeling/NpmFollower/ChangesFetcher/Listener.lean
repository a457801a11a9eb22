import NpmFollower.DiffLogBuilder.Deserialize
import NpmFollower.Library.Runs
import NpmFollower.PostgresDb.ChangeLog

/-! # Following the changes of the registry

The registry shows of each package its latest change only, and a stream sends the
changes after a seq. The fetcher stores what its stream sends, and opens the next
stream behind the last seq that it has stored.
-/

namespace NpmFollower.ChangesFetcher

open PostgresDb DiffLogBuilder

/-- `rawJson` is what `to_value` makes of the whole event. -/
structure ChangeEvent where
  id : String
  seq : Value
  rawJson : Value

def ChangeEvent.seqNum (e : ChangeEvent) : ℤ := e.seq.asI64.getD 0

/-- What the feed of the registry shows of all that has been published, in this order. -/
def shownChanges : List ChangeEvent → List ChangeEvent
  | [] => []
  | e :: later => if later.any (·.id = e.id) then shownChanges later else e :: shownChanges later

def queryLatestChangeSeq (changeLog : List Change) : Option ℤ := (changeLog.map Change.seq).max?

/-- `none` is a panic, also on a seq that is there already. -/
def insertChange (S : SerdeJson) (changeLog : List Change) (seq : ℤ) (rawJson : Value) :
    Option (List Change) := do
  let sanitized ← sanitizedValue S rawJson
  if seq ∈ changeLog.map Change.seq then none else some (changeLog ++ [⟨seq, sanitized⟩])

def processChangeEvent (S : SerdeJson) (changeLog : List Change) (change : ChangeEvent) :
    Option (List Change) := do
  let seq ← change.seq.asI64
  insertChange S changeLog seq change.rawJson

/-- `stream` is the seq up to which an open stream has sent. -/
structure FetcherWorld where
  published : List ChangeEvent
  changeLog : List Change
  stream : Option ℤ

inductive FetcherAction where
  /-- The registry takes a new change. -/
  | publish (e : ChangeEvent)
  /-- `listen_for_npm_changes_forever` opens its stream. -/
  | listen
  | receive
  /-- The stream ends or fails, or the process does. -/
  | hangUp

namespace FetcherWorld

def latest (w : FetcherWorld) : ℤ := (queryLatestChangeSeq w.changeLog).getD 0

/-- Seqs are integers, and new ones are larger. -/
def Publishes (w : FetcherWorld) (e : ChangeEvent) : Prop :=
  e.seq.asI64.isSome ∧ 0 < e.seqNum ∧ ∀ e' ∈ w.published, e'.seqNum < e.seqNum

instance (w : FetcherWorld) (e : ChangeEvent) : Decidable (w.Publishes e) :=
  inferInstanceAs (Decidable (_ ∧ _ ∧ _))

/-- What the stream sends next. -/
def next (w : FetcherWorld) : Option ChangeEvent :=
  w.stream.bind fun sent => (shownChanges w.published).find? fun e => sent < e.seqNum

def step (S : SerdeJson) (w : FetcherWorld) : FetcherAction → Option FetcherWorld
  | .publish e => if w.Publishes e then some { w with published := w.published ++ [e] } else none
  | .listen =>
    if w.stream.isNone then
      -- no `since` in the URL is a stream from the start
      some { w with stream := some ((queryLatestChangeSeq w.changeLog).getD 0) }
    else none
  | .receive =>
    match w.next with
    | none => none
    | some e =>
      match processChangeEvent S w.changeLog e with
      | some changeLog => some { w with changeLog, stream := some e.seqNum }
      | none => some { w with stream := none }
  | .hangUp => some { w with stream := none }

def initial : FetcherWorld := ⟨[], [], none⟩

end FetcherWorld

/-- The row that an event is stored as. -/
def ChangeEvent.stored (S : SerdeJson) (e : ChangeEvent) : Option Change := do
  let seq ← e.seq.asI64
  let sanitized ← sanitizedValue S e.rawJson
  return ⟨seq, sanitized⟩

theorem ChangeEvent.seq_of_stored {S : SerdeJson} {e : ChangeEvent} {c : Change}
    (h : e.stored S = some c) : c.seq = e.seqNum := by
  obtain ⟨seq, hseq, h⟩ := Option.bind_eq_some_iff.mp h
  obtain ⟨sanitized, -, h⟩ := Option.bind_eq_some_iff.mp h
  cases h
  simp [seqNum, hseq]

/-- An insert is refused only for its value or for a seq that is taken. -/
theorem processChangeEvent_eq {S : SerdeJson} {changeLog : List Change} {e : ChangeEvent}
    (hnew : e.seqNum ∉ changeLog.map Change.seq) :
    processChangeEvent S changeLog e = (e.stored S).map fun c => changeLog ++ [c] := by
  cases hseq : e.seq.asI64 with
  | none => simp [processChangeEvent, ChangeEvent.stored, hseq]
  | some seq =>
    have hseqNum : e.seqNum = seq := by
      simp [ChangeEvent.seqNum, hseq]
    rw [hseqNum] at hnew
    cases hvalue : sanitizedValue S e.rawJson with
    | none => simp [processChangeEvent, insertChange, ChangeEvent.stored, hseq, hvalue]
    | some sanitized =>
      simp only [processChangeEvent, insertChange, ChangeEvent.stored, hseq, hvalue,
        Option.bind_eq_bind, Option.bind_some, if_neg hnew]
      rfl

/-- Nothing newer has been published of the package. -/
def Current (published : List ChangeEvent) (e : ChangeEvent) : Prop :=
  ∃ before after, published = before ++ e :: after ∧ ∀ e' ∈ after, e'.id ≠ e.id

theorem current_cons {e₀ e : ChangeEvent} {later : List ChangeEvent} :
    Current (e₀ :: later) e ↔ (e = e₀ ∧ ∀ e' ∈ later, e'.id ≠ e.id) ∨ Current later e := by
  constructor
  · rintro ⟨before, after, heq, hafter⟩
    cases before with
    | nil =>
      cases heq
      exact .inl ⟨rfl, hafter⟩
    | cons e₁ before =>
      cases heq
      exact .inr ⟨before, after, rfl, hafter⟩
  · rintro (⟨rfl, hlater⟩ | ⟨before, after, rfl, hafter⟩)
    · exact ⟨[], later, rfl, hlater⟩
    · exact ⟨e₀ :: before, after, rfl, hafter⟩

/-- A new change hides the one before it of its package only. -/
theorem Current.of_append {published : List ChangeEvent} {e e' : ChangeEvent}
    (h : Current (published ++ [e]) e') : Current published e' ∨ e' = e := by
  induction published with
  | nil =>
    rcases current_cons.mp h with ⟨rfl, -⟩ | ⟨before, after, heq, -⟩
    · exact .inr rfl
    · simp at heq
  | cons e₀ later ih =>
    rw [List.cons_append] at h
    rcases current_cons.mp h with ⟨rfl, hlater⟩ | hlater
    · refine .inl (current_cons.mpr (.inl ⟨rfl, fun e₁ he₁ => hlater e₁ ?_⟩))
      exact List.mem_append_left _ he₁
    · exact (ih hlater).imp_left fun hcurrent => current_cons.mpr (.inr hcurrent)

theorem mem_shownChanges {published : List ChangeEvent} {e : ChangeEvent} :
    e ∈ shownChanges published ↔ Current published e := by
  induction published with
  | nil =>
    constructor
    · rintro ⟨⟩
    · rintro ⟨before, after, heq, -⟩
      simp at heq
  | cons e₀ later ih =>
    rw [shownChanges, current_cons]
    split_ifs with hhidden
    · obtain ⟨e₁, he₁, hid⟩ := List.any_eq_true.mp hhidden
      rw [ih]
      constructor
      · exact .inr
      · rintro (⟨rfl, hlater⟩ | hlater)
        · exact absurd (of_decide_eq_true hid) (hlater e₁ he₁)
        · exact hlater
    · have hlast : ∀ e₁ ∈ later, e₁.id ≠ e₀.id := by simpa using hhidden
      rw [List.mem_cons, ih]
      constructor
      · rintro (rfl | hlater)
        · exact .inl ⟨rfl, hlast⟩
        · exact .inr hlater
      · rintro (⟨rfl, -⟩ | hlater)
        · exact .inl rfl
        · exact .inr hlater

theorem shownChanges_sublist (es : List ChangeEvent) : (shownChanges es).Sublist es := by
  induction es with
  | nil => exact .slnil
  | cons e later ih =>
    rw [shownChanges]
    split_ifs
    · exact ih.cons e
    · exact ih.cons_cons e

namespace FetcherWorld

variable {S : SerdeJson} {w w' : FetcherWorld}

/-- Nothing is stored twice or in another order, and of each package nothing that the fetcher has
passed is missing but what was replaced before it came to it. -/
structure Fetched (S : SerdeJson) (w : FetcherWorld) : Prop where
  published : w.published.Pairwise fun e e' => e.seqNum < e'.seqNum
  positive : ∀ e ∈ w.published, 0 < e.seqNum
  ordered : w.changeLog.Pairwise fun c c' => c.seq < c'.seq
  stored : ∀ c ∈ w.changeLog, ∃ e ∈ w.published, e.stored S = some c
  passed : ∀ e, Current w.published e → e.seqNum ≤ w.latest → ∃ c ∈ w.changeLog, e.stored S = some c
  resumed : ∀ sent ∈ w.stream, sent = w.latest

theorem latest_eq_zero_or : w.latest = 0 ∨ ∃ c ∈ w.changeLog, c.seq = w.latest := by
  rw [latest, queryLatestChangeSeq]
  cases hmax : (w.changeLog.map Change.seq).max? with
  | none => exact .inl rfl
  | some seq =>
    obtain ⟨c, hc, hseq⟩ := List.mem_map.mp (List.max?_eq_some_iff.mp hmax).1
    exact .inr ⟨c, hc, hseq⟩

theorem le_latest {c : Change} (hc : c ∈ w.changeLog) : c.seq ≤ w.latest := by
  rw [latest, queryLatestChangeSeq]
  cases hmax : (w.changeLog.map Change.seq).max? with
  | none =>
    rw [List.max?_eq_none_iff, List.map_eq_nil_iff] at hmax
    rw [hmax] at hc
    cases hc
  | some seq => exact (List.max?_eq_some_iff.mp hmax).2 _ (List.mem_map_of_mem hc)

theorem Fetched.latest_le (h : Fetched S w) {e : ChangeEvent}
    (hnew : ∀ e' ∈ w.published, e'.seqNum < e.seqNum) (hpos : 0 < e.seqNum) :
    w.latest < e.seqNum := by
  rcases w.latest_eq_zero_or with hzero | ⟨c, hc, hseq⟩
  · rwa [hzero]
  · obtain ⟨e', he', hstored⟩ := h.stored c hc
    rw [← hseq, ChangeEvent.seq_of_stored hstored]
    exact hnew e' he'

/-- The last seq is that of the row that is stored last. -/
theorem latest_append {changeLog : List Change} {c : Change} {stream stream' : Option ℤ}
    {published : List ChangeEvent} (hlt : (⟨published, changeLog, stream⟩ : FetcherWorld).latest < c.seq)
    : (⟨published, changeLog ++ [c], stream'⟩ : FetcherWorld).latest = c.seq := by
  have hmax : ((changeLog ++ [c]).map Change.seq).max? = some c.seq := by
    rw [List.max?_eq_some_iff]
    constructor
    · simp
    · intro seq hseq
      obtain ⟨c', hc', rfl⟩ := List.mem_map.mp hseq
      rcases List.mem_append.mp hc' with hold | hc'
      · exact (le_latest (w := ⟨published, changeLog, stream⟩) hold).trans hlt.le
      · rw [List.mem_singleton.mp hc']
  rw [latest, queryLatestChangeSeq, hmax, Option.getD_some]

section Receive

variable {e : ChangeEvent} (h : Fetched S w) (hnext : w.next = some e)

include h hnext

/-- What comes next is the first change behind all that is stored. -/
theorem Fetched.next_spec : Current w.published e ∧ w.latest < e.seqNum ∧
    ∀ e', Current w.published e' → w.latest < e'.seqNum → e'.seqNum ≤ e.seqNum → e' = e := by
  obtain ⟨sent, hsent, hfind⟩ := Option.bind_eq_some_iff.mp hnext
  obtain ⟨hafter, before, after, hshown, hbefore⟩ := List.find?_eq_some_iff_append.mp hfind
  obtain rfl := h.resumed sent hsent
  refine ⟨?_, of_decide_eq_true hafter, fun e' hcurrent hlt hle => ?_⟩
  · rw [← mem_shownChanges, hshown]
    exact List.mem_append_right _ List.mem_cons_self
  · have hmem := mem_shownChanges.mpr hcurrent
    have hordered := h.published.sublist (shownChanges_sublist w.published)
    rw [hshown, List.pairwise_append, List.pairwise_cons] at hordered
    rw [hshown] at hmem
    rcases List.mem_append.mp hmem with hmem | hmem
    · have hnot : ¬w.latest < e'.seqNum := by simpa using hbefore e' hmem
      exact absurd hlt hnot
    · rcases List.mem_cons.mp hmem with rfl | hmem
      · rfl
      · exact absurd (hordered.2.1.1 e' hmem) (not_lt.mpr hle)

/-- The primary key refuses nothing that a stream sends. -/
theorem Fetched.processChangeEvent_eq : processChangeEvent S w.changeLog e =
    (e.stored S).map fun c => w.changeLog ++ [c] := by
  apply ChangesFetcher.processChangeEvent_eq
  intro hmem
  obtain ⟨c, hc, hseq⟩ := List.mem_map.mp hmem
  have hle := w.le_latest hc
  have hlt := (h.next_spec hnext).2.1
  omega

theorem Fetched.receive {c : Change} (hstored : e.stored S = some c) :
    Fetched S { w with changeLog := w.changeLog ++ [c], stream := some e.seqNum } := by
  obtain ⟨hcurrent, hlt, hfirst⟩ := h.next_spec hnext
  have hseq := ChangeEvent.seq_of_stored hstored
  have hlatest : FetcherWorld.latest
      { w with changeLog := w.changeLog ++ [c], stream := some e.seqNum } = e.seqNum := by
    rw [← hseq]
    exact latest_append (hseq ▸ hlt)
  refine ⟨h.published, h.positive, ?_, ?_, ?_, ?_⟩
  · refine List.pairwise_append.mpr ⟨h.ordered, List.pairwise_singleton _ _, fun c' hc' => ?_⟩
    intro c'' hc''
    rw [List.mem_singleton.mp hc'', hseq]
    exact (w.le_latest hc').trans_lt hlt
  · intro c' hc'
    rcases List.mem_append.mp hc' with hold | hc'
    · exact h.stored c' hold
    · rw [List.mem_singleton.mp hc']
      obtain ⟨before, after, heq, -⟩ := hcurrent
      exact ⟨e, by rw [heq]; simp, hstored⟩
  · intro e' hcurrent' hle
    rw [hlatest] at hle
    rcases le_or_gt e'.seqNum w.latest with hold | hnew
    · obtain ⟨c', hc', hstored'⟩ := h.passed e' hcurrent' hold
      exact ⟨c', List.mem_append_left _ hc', hstored'⟩
    · rw [hfirst e' hcurrent' hnew hle]
      exact ⟨c, by simp, hstored⟩
  · rintro sent ⟨⟩
    exact hlatest.symm

end Receive

theorem Fetched.publish (h : Fetched S w) {e : ChangeEvent} (hpublishes : w.Publishes e) :
    Fetched S { w with published := w.published ++ [e] } := by
  obtain ⟨-, hpos, hnew⟩ := hpublishes
  refine ⟨?_, ?_, h.ordered, ?_, ?_, h.resumed⟩
  · refine List.pairwise_append.mpr ⟨h.published, List.pairwise_singleton _ _, fun e' he' => ?_⟩
    intro e'' he''
    rw [List.mem_singleton.mp he'']
    exact hnew e' he'
  · intro e' he'
    rcases List.mem_append.mp he' with hold | he'
    · exact h.positive e' hold
    · rwa [List.mem_singleton.mp he']
  · intro c hc
    obtain ⟨e', he', hstored⟩ := h.stored c hc
    exact ⟨e', List.mem_append_left _ he', hstored⟩
  · intro e' hcurrent hle
    rcases hcurrent.of_append with hold | rfl
    · exact h.passed e' hold hle
    · exact absurd hle (not_le.mpr (h.latest_le hnew hpos))

theorem Fetched.step (h : Fetched S w) {a : FetcherAction} (hstep : w.step S a = some w') :
    Fetched S w' := by
  cases a with
  | publish e =>
    rw [FetcherWorld.step] at hstep
    split_ifs at hstep with hpublishes
    cases hstep
    exact h.publish hpublishes
  | listen =>
    rw [FetcherWorld.step] at hstep
    split_ifs at hstep
    cases hstep
    refine ⟨h.published, h.positive, h.ordered, h.stored, h.passed, ?_⟩
    rintro sent ⟨⟩
    rfl
  | receive =>
    rw [FetcherWorld.step] at hstep
    cases hnext : w.next with
    | none => simp [hnext] at hstep
    | some e =>
      rw [hnext] at hstep
      dsimp only at hstep
      rw [h.processChangeEvent_eq hnext] at hstep
      cases hstored : e.stored S with
      | none =>
        rw [hstored] at hstep
        cases hstep
        exact ⟨h.published, h.positive, h.ordered, h.stored, h.passed, nofun⟩
      | some c =>
        rw [hstored] at hstep
        cases hstep
        exact h.receive hnext hstored
  | hangUp =>
    cases hstep
    exact ⟨h.published, h.positive, h.ordered, h.stored, h.passed, nofun⟩

theorem fetched_initial (S : SerdeJson) : Fetched S initial where
  published := .nil
  positive := nofun
  ordered := .nil
  stored := nofun
  passed := by
    rintro e ⟨before, after, heq, -⟩
    simp [initial] at heq
  resumed := nofun

/-- A step stores nothing or a row behind all others. -/
theorem Fetched.step_changeLog (h : Fetched S w) {a : FetcherAction}
    (hstep : w.step S a = some w') : ∃ new, w'.changeLog = w.changeLog ++ new ∧
      w.latest ≤ w'.latest ∧ ∀ c ∈ new, w.latest < c.seq ∧ c.seq ≤ w'.latest := by
  have hsame (hlog : w'.changeLog = w.changeLog) : ∃ new, w'.changeLog = w.changeLog ++ new ∧
      w.latest ≤ w'.latest ∧ ∀ c ∈ new, w.latest < c.seq ∧ c.seq ≤ w'.latest := by
    refine ⟨[], by rw [hlog, List.append_nil], ?_, nofun⟩
    rw [latest, latest, hlog]
  cases a with
  | publish e =>
    rw [FetcherWorld.step] at hstep
    split_ifs at hstep
    cases hstep
    exact hsame rfl
  | listen =>
    rw [FetcherWorld.step] at hstep
    split_ifs at hstep
    cases hstep
    exact hsame rfl
  | receive =>
    rw [FetcherWorld.step] at hstep
    cases hnext : w.next with
    | none => simp [hnext] at hstep
    | some e =>
      rw [hnext] at hstep
      dsimp only at hstep
      rw [h.processChangeEvent_eq hnext] at hstep
      cases hstored : e.stored S with
      | none =>
        rw [hstored] at hstep
        cases hstep
        exact hsame rfl
      | some c =>
        rw [hstored] at hstep
        cases hstep
        have hlt : w.latest < c.seq := by
          rw [ChangeEvent.seq_of_stored hstored]
          exact (h.next_spec hnext).2.1
        have hlatest : FetcherWorld.latest
            { w with changeLog := w.changeLog ++ [c], stream := some e.seqNum } = c.seq :=
          latest_append hlt
        refine ⟨[c], rfl, ?_, fun c' hc' => ?_⟩
        · rw [hlatest]
          exact hlt.le
        · rw [List.mem_singleton.mp hc', hlatest]
          exact ⟨hlt, le_rfl⟩
  | hangUp =>
    cases hstep
    exact hsame rfl

theorem Fetched.grows (h : Fetched S w) {C : FetcherWorld → FetcherAction → Prop}
    (hrun : Runs.Reach (FetcherWorld.step S) C w w') : w.changeLog <+: w'.changeLog := by
  have hinv := hrun.invariant (I := fun w' => Fetched S w' ∧ w.changeLog <+: w'.changeLog)
    ⟨h, List.prefix_rfl⟩ fun hinv _ hstep => ?_
  · exact hinv.2
  · obtain ⟨new, hnew, -⟩ := hinv.1.step_changeLog hstep
    exact ⟨hinv.1.step hstep, hinv.2.trans ⟨new, hnew.symm⟩⟩

/-- Behind a stream that has nothing to send, every package is stored as it is now. -/
theorem Fetched.caughtUp (h : Fetched S w) (hstream : w.stream.isSome) (hnext : w.next = none)
    {e : ChangeEvent} (hcurrent : Current w.published e) :
    ∃ c ∈ w.changeLog, e.stored S = some c := by
  obtain ⟨sent, hsent⟩ := Option.isSome_iff_exists.mp hstream
  apply h.passed e hcurrent
  have hnone : (shownChanges w.published).find? (fun e => sent < e.seqNum) = none := by
    rw [next, hsent] at hnext
    exact hnext
  have hnot := List.find?_eq_none.mp hnone e (mem_shownChanges.mpr hcurrent)
  rw [← h.resumed sent hsent]
  simpa using hnot

/-- Whenever streams end and fetchers are killed: the log has each change once and in the order of
the registry, it is only appended to, no change is skipped that was not replaced, and no row is
refused by the primary key. -/
theorem fetched_of_reach (S : SerdeJson)
    (h : Runs.Reach (FetcherWorld.step S) (fun _ _ => True) initial w) :
    Fetched S w ∧
    (∀ e, w.next = some e →
      processChangeEvent S w.changeLog e = (e.stored S).map fun c => w.changeLog ++ [c]) ∧
    (w.stream.isSome → w.next = none → ∀ e, Current w.published e →
      ∃ c ∈ w.changeLog, e.stored S = some c) ∧
    ∀ w', Runs.Reach (FetcherWorld.step S) (fun _ _ => True) w w' → w.changeLog <+: w'.changeLog := by
  have hfetched : Fetched S w :=
    h.invariant (fetched_initial S) fun hinv _ hstep => hinv.step hstep
  exact ⟨hfetched, fun e hnext => hfetched.processChangeEvent_eq hnext,
    fun hstream hnext e hcurrent => hfetched.caughtUp hstream hnext hcurrent,
    fun w' hrun => hfetched.grows hrun⟩

def sampleEvent (id : String) (seq : ℕ) : ChangeEvent :=
  ⟨id, .number (.posInt seq), .string id⟩

/-- The stream fails behind the first change, and a package changes before it comes back. -/
def sampleActions : List FetcherAction :=
  [.publish (sampleEvent "p" 1), .publish (sampleEvent "q" 3), .listen, .receive, .hangUp,
    .publish (sampleEvent "q" 4), .listen, .receive]

theorem fetched_of_reach_hungUp : ∃ w : FetcherWorld,
    (∀ e, Current w.published e → ∃ c ∈ w.changeLog, e.stored stringsOnly = some c) ∧
      w.changeLog.map Change.seq = [1, 4] := by
  have hsome : (Runs.perform (FetcherWorld.step stringsOnly) initial sampleActions).map
      (fun w => (w.changeLog.map Change.seq, w.stream.isSome, w.next.isSome)) =
      some ([1, 4], true, false) := by
    decide +kernel
  obtain ⟨w, hw, heq⟩ := Option.map_eq_some_iff.mp hsome
  obtain ⟨hseqs, heq⟩ := Prod.mk.inj heq
  obtain ⟨hstream, hnext⟩ := Prod.mk.inj heq
  have hreach := Runs.reach_of_perform (fun _ _ _ => trivial) hw
  exact ⟨w, (fetched_of_reach stringsOnly hreach).2.2.1 hstream (by simpa using hnext), hseqs⟩

end FetcherWorld

end NpmFollower.ChangesFetcher
