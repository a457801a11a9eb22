import NpmFollower.Library.Paging
import NpmFollower.PostgresDb.BuilderLoop

/-! # What a builder has processed

The input of a builder is a table to which rows are only appended, with seqs after
those that it has shown. As long as no COMMIT is lost, the processed rows are the
rows up to the persisted position, each of them once and in the order of the table.
-/

namespace NpmFollower.PostgresDb

variable {κ τ ι : Type}

def BuilderState.arrive (s : BuilderState κ τ ι) (upTo : ℤ) : BuilderState κ τ ι :=
  { s with shown := max s.shown upTo }

namespace Builder

variable (B : Builder κ τ ι)

def upTo (table : List ι) (seq : ℤ) : List ι := table.filter fun row => B.seq row ≤ seq

/-- The table is sorted, and a page has all its rows after a position up to the last of the page. -/
structure ReadsTable (table : List ι) : Prop where
  sorted : Paging.Sorted B.seq table
  page : ∀ {after limit last}, (B.query table after limit).getLast? = some last →
    after < B.seq last ∧ last ∈ table ∧
      B.query table after limit = (Paging.rest B.seq table after).filter fun row => B.seq row ≤ B.seq last

/-- `P` relates what a process keeps in memory, its tables and the rows that they are made of. A new
process knows nothing, and a page adds its rows. -/
structure Accounts (P : κ → τ → List ι → Prop) : Prop where
  new : ∀ {processor tables rows}, P processor tables rows → P B.new tables rows
  page : ∀ {processor tables rows processor' tables' entries}, P processor tables rows →
    B.processPage processor entries tables = some (processor', tables') →
      P processor' tables' (rows ++ entries)

/-- What has been processed is known exactly. -/
structure Exact (P : κ → τ → List ι → Prop) (table : List ι) (s : BuilderState κ τ ι) : Prop where
  visible : ∀ row ∈ table, B.seq row ≤ s.shown
  behind : s.db.position ≤ s.shown
  position : ∀ p ∈ s.process, p.processedUpTo = s.db.position
  processed : s.db.processed = B.upTo table s.db.position
  running : ∀ p ∈ s.process, P p.processor s.db.tables s.db.processed
  persisted : P B.new s.db.tables s.db.processed

variable {B} {P : κ → τ → List ι → Prop} {table : List ι} {s s' : BuilderState κ τ ι}

theorem upTo_append_of_lt {new : List ι} {seq : ℤ} (h : ∀ row ∈ new, seq < B.seq row) :
    B.upTo (table ++ new) seq = B.upTo table seq := by
  have hnew : new.filter (fun row => B.seq row ≤ seq) = [] := by
    rw [List.filter_eq_nil_iff]
    intro row hrow
    simpa using h row hrow
  rw [upTo, List.filter_append, hnew, List.append_nil, upTo]

/-- The rows up to a position and the page behind it are the rows up to the last of the page. -/
theorem upTo_append_page (h : B.ReadsTable table) {after limit : ℤ} {last : ι}
    (hlast : (B.query table after limit).getLast? = some last) :
    B.upTo table after ++ B.query table after limit = B.upTo table (B.seq last) := by
  obtain ⟨hafter, -, hpage⟩ := h.page hlast
  have hsplit := h.sorted.filter_append after
  conv_rhs => rw [upTo, ← hsplit, List.filter_append, List.filter_filter]
  rw [hpage]
  congr 1
  refine List.filter_congr fun row _ => ?_
  rw [← Bool.decide_and, decide_eq_decide]
  omega

/-- Nothing has been shown, and nothing is processed. -/
theorem exact_initial {tables : τ} (h : P B.new tables []) :
    B.Exact P [] (initial 0 ⟨tables, none, []⟩) where
  visible := nofun
  behind := le_rfl
  position := nofun
  processed := rfl
  running := nofun
  persisted := h

theorem Exact.rows_eq (h : B.Exact P table s) : B.rows table s = table := by
  rw [rows, List.filter_eq_self]
  intro row hrow
  exact decide_eq_true (h.visible row hrow)

/-- Rows behind all that has been shown are no news for what is processed. -/
theorem Exact.arrive (h : B.Exact P table s) {new : List ι} {upTo : ℤ}
    (hnew : ∀ row ∈ new, s.shown < B.seq row ∧ B.seq row ≤ upTo) :
    B.Exact P (table ++ new) (s.arrive upTo) := by
  constructor
  · intro row hrow
    rcases List.mem_append.mp hrow with hold | hrow
    · exact (h.visible row hold).trans (le_max_left _ _)
    · exact (hnew row hrow).2.trans (le_max_right _ _)
  · exact h.behind.trans (le_max_left _ _)
  · exact h.position
  · have hafter : ∀ row ∈ new, s.db.position < B.seq row := fun row hrow =>
      h.behind.trans_lt (hnew row hrow).1
    exact h.processed.trans (upTo_append_of_lt hafter).symm
  · exact h.running
  · exact h.persisted

theorem Exact.start (h : B.Exact P table s) :
    B.Exact P table { s with process := some ⟨B.new, [], s.db.position, false⟩ } := by
  refine ⟨h.visible, h.behind, ?_, h.processed, ?_, h.persisted⟩
  · rintro p ⟨⟩
    rfl
  · rintro p ⟨⟩
    exact h.persisted

theorem Exact.stop (h : B.Exact P table s) : B.Exact P table { s with process := none } :=
  ⟨h.visible, h.behind, nofun, h.processed, nofun, h.persisted⟩

section

variable (haccounts : B.Accounts P)

include haccounts

theorem Exact.batch (hreads : B.ReadsTable table) {p : BuilderProcess κ ι} (h : B.Exact P table s)
    (hp : s.process = some p) (hended : p.ended = false) {commit : Option DieselError}
    (hkept : ¬ B.LosesCommit table s (.batch commit)) :
    B.Exact P table (B.batch table commit s p) := by
  rcases batch_cases B table commit s p with
    ⟨-, hbatch⟩ | ⟨last, -, -, hbatch⟩ | ⟨last, processor, tables, hlast, hclosure, hbatch⟩
  · rw [hbatch]
    refine ⟨h.visible, h.behind, ?_, h.processed, ?_, h.persisted⟩
    · rintro p' ⟨⟩
      exact h.position p hp
    · rintro p' ⟨⟩
      exact h.running p hp
  · rw [hbatch]
    exact h.stop
  · have hcommit : commit = none := by
      by_contra hfails
      obtain ⟨e, rfl⟩ := Option.ne_none_iff_exists'.mp hfails
      exact hkept ⟨e, p, last, rfl, hp, hended, hlast, by rw [hclosure]; rfl⟩
    obtain ⟨r, hprocess, hr⟩ := Option.map_eq_some_iff.mp hclosure
    obtain ⟨rfl, hwritten⟩ := Prod.mk.inj hr
    obtain ⟨rfl, -, -⟩ := BuilderDb.mk.inj hwritten
    have hpage : B.page table s p = B.query table s.db.position (B.pageSize p.pages) := by
      rw [page, h.rows_eq, h.position p hp]
    have hpages : P r.1 r.2 (s.db.processed ++ B.page table s p) :=
      haccounts.page (h.running p hp) hprocess
    rw [hbatch, if_pos hcommit]
    rw [hpage] at hlast
    refine ⟨h.visible, h.visible last (hreads.page hlast).2.1, ?_, ?_, ?_, haccounts.new hpages⟩
    · rintro p' ⟨⟩
      rfl
    · rw [h.processed, hpage]
      exact upTo_append_page hreads hlast
    · rintro p' ⟨⟩
      exact hpages

theorem Exact.step (hreads : B.ReadsTable table) (h : B.Exact P table s) {a : BuilderAction}
    (hkept : ¬ B.LosesCommit table s a) (harrive : ∀ upTo, a ≠ .arrive upTo)
    (hstep : B.step table s a = some s') : B.Exact P table s' := by
  cases a with
  | arrive upTo => exact absurd rfl (harrive upTo)
  | start =>
    rw [Builder.step] at hstep
    split_ifs at hstep
    cases hstep
    exact h.start
  | batch commit =>
    rw [Builder.step] at hstep
    split at hstep
    · cases hstep
    · next p hp =>
      split_ifs at hstep with hended
      cases hstep
      exact h.batch haccounts hreads hp (by simpa using hended) hkept
  | kill =>
    cases hstep
    exact h.stop

end

/-- Pages are read until nothing is left: one is empty only then, and with the last page the loop
ends. -/
structure ReadsAll (B : Builder κ τ ι) (table : List ι) : Prop where
  nonempty : ∀ pages after, B.query table after (B.pageSize pages) = [] →
    Paging.rest B.seq table after = []
  last : ∀ pages after, B.lastPage (B.query table after (B.pageSize pages)) = true →
    B.query table after (B.pageSize pages) = Paging.rest B.seq table after

/-- All rows are up to the position behind which there are none. -/
theorem upTo_eq_of_rest_eq_nil (hsorted : Paging.Sorted B.seq table) {seq : ℤ}
    (h : Paging.rest B.seq table seq = []) : B.upTo table seq = table := by
  have hsplit := hsorted.filter_append seq
  rwa [h, List.append_nil] at hsplit

/-- A process that is not killed and whose pages can all be processed ends behind the last row. -/
theorem Exact.finishes (haccounts : B.Accounts P) (hreads : B.ReadsTable table)
    (hall : B.ReadsAll table)
    (hok : ∀ {processor tables rows entries}, P processor tables rows → entries ⊆ table →
      (B.processPage processor entries tables).isSome)
    {p : BuilderProcess κ ι} (h : B.Exact P table s) (hp : s.process = some p)
    (hended : p.ended = false) : ∃ n s', Runs.perform (B.step table) s
      (List.replicate n (.batch none)) = some s' ∧ (∃ p' ∈ s'.process, p'.ended = true) ∧
      B.upTo table s'.db.position = table := by
  induction hlength : (Paging.rest B.seq table s.db.position).length using Nat.strong_induction_on
    generalizing s p with
  | _ n ih =>
    have hstep : B.step table s (.batch none) = some (B.batch table none s p) := by
      rw [Builder.step, hp]
      simp [hended]
    have hkept : ¬ B.LosesCommit table s (.batch none) := by
      rintro ⟨e, p', last, ⟨⟩, -⟩
    have hexact := h.batch haccounts hreads hp hended hkept
    have hperform (m : ℕ) : Runs.perform (B.step table) s (List.replicate (m + 1) (.batch none)) =
        Runs.perform (B.step table) (B.batch table none s p) (List.replicate m (.batch none)) := by
      rw [List.replicate_succ, Runs.perform, List.foldlM_cons, hstep]
      rfl
    have hpage : B.page table s p = B.query table s.db.position (B.pageSize p.pages) := by
      rw [page, h.rows_eq, h.position p hp]
    rcases batch_cases B table none s p with
      ⟨hnone, hbatch⟩ | ⟨last, hlast, hclosure, -⟩ | ⟨last, processor, tables, hlast, -, hbatch⟩
    · refine ⟨1, _, hperform 0, ?_, ?_⟩
      · rw [hbatch]
        exact ⟨_, rfl, rfl⟩
      · rw [hbatch]
        rw [hpage, List.getLast?_eq_none_iff] at hnone
        exact upTo_eq_of_rest_eq_nil hreads.sorted (hall.nonempty _ _ hnone)
    · have hsub : B.page table s p ⊆ table := by
        rw [hpage] at hlast ⊢
        rw [(hreads.page hlast).2.2]
        exact fun row hrow => List.mem_of_mem_filter (List.mem_of_mem_filter hrow)
      have hsome := hok (h.running p hp) hsub
      rw [closure, Option.map_eq_none_iff] at hclosure
      rw [hclosure] at hsome
      cases hsome
    · rw [if_pos rfl] at hbatch
      have hposition : (B.batch table none s p).db.position = B.seq last := by
        rw [hbatch]
        rfl
      have hprocess : (B.batch table none s p).process = some ⟨processor, p.pages ++ [B.page table s p],
          B.seq last, B.lastPage (B.page table s p)⟩ := by
        rw [hbatch]
      rw [hpage] at hlast
      cases hlastPage : B.lastPage (B.page table s p) with
      | true =>
        refine ⟨1, _, hperform 0, ⟨_, hprocess, hlastPage⟩, ?_⟩
        rw [hpage] at hlastPage
        rw [hposition, ← upTo_append_page hreads hlast, hall.last _ _ hlastPage]
        exact hreads.sorted.filter_append s.db.position
      | false =>
        obtain ⟨hafter, hmem, -⟩ := hreads.page hlast
        have hrest : Paging.rest B.seq table (B.batch table none s p).db.position =
            (Paging.rest B.seq table s.db.position).filter fun row => B.seq last < B.seq row := by
          rw [hposition, Paging.rest, Paging.rest, List.filter_filter]
          refine List.filter_congr fun row _ => ?_
          rw [← Bool.decide_and, decide_eq_decide]
          omega
        have hfewer : (Paging.rest B.seq table (B.batch table none s p).db.position).length < n := by
          rw [hrest, ← hlength, List.length_filter_lt_length_iff_exists]
          exact ⟨last, List.mem_filter.mpr ⟨hmem, decide_eq_true hafter⟩, by simp⟩
        obtain ⟨m, s', hrun, hdone⟩ := ih _ hfewer hexact hprocess hlastPage rfl
        exact ⟨m + 1, s', (hperform m).trans hrun, hdone⟩

/-- What a step can do to what is persisted. -/
theorem Exact.step_db (hreads : B.ReadsTable table) (h : B.Exact P table s) {a : BuilderAction}
    (harrive : ∀ upTo, a ≠ .arrive upTo) (hstep : B.step table s a = some s') :
    s'.shown = s.shown ∧ (s'.db = s.db ∨ ∃ processor entries last r,
      entries = (Paging.rest B.seq table s.db.position).filter (fun row => B.seq row ≤ B.seq last) ∧
      entries.getLast? = some last ∧ P processor s.db.tables s.db.processed ∧
      B.processPage processor entries s.db.tables = some r ∧
      s'.db = ⟨r.2, some (B.seq last), s.db.processed ++ entries⟩) := by
  cases a with
  | arrive upTo => exact absurd rfl (harrive upTo)
  | start =>
    rw [Builder.step] at hstep
    split_ifs at hstep
    cases hstep
    exact ⟨rfl, .inl rfl⟩
  | batch commit =>
    rw [Builder.step] at hstep
    split at hstep
    · cases hstep
    · next p hp =>
      split_ifs at hstep with hended
      cases hstep
      rcases batch_cases B table commit s p with
        ⟨-, hbatch⟩ | ⟨last, -, -, hbatch⟩ | ⟨last, processor, tables, hlast, hclosure, hbatch⟩
      · rw [hbatch]
        exact ⟨rfl, .inl rfl⟩
      · rw [hbatch]
        exact ⟨rfl, .inl rfl⟩
      · rw [hbatch]
        obtain ⟨r, hprocess, hr⟩ := Option.map_eq_some_iff.mp hclosure
        obtain ⟨rfl, hwritten⟩ := Prod.mk.inj hr
        obtain ⟨rfl, -, -⟩ := BuilderDb.mk.inj hwritten
        have hpage : B.page table s p = B.query table s.db.position (B.pageSize p.pages) := by
          rw [page, h.rows_eq, h.position p hp]
        refine ⟨rfl, ?_⟩
        dsimp only
        split_ifs
        · rw [hpage] at hlast
          exact .inr ⟨p.processor, B.page table s p, last, r, by rw [hpage, (hreads.page hlast).2.2],
            by rw [hpage, hlast], h.running p hp, hprocess, rfl⟩
        · exact .inl rfl
  | kill =>
    cases hstep
    exact ⟨rfl, .inl rfl⟩

end Builder

end NpmFollower.PostgresDb
