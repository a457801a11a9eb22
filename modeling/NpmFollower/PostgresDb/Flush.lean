import NpmFollower.Library.FiniteMap
import NpmFollower.PostgresDb.InternalDiffLogState

/-! # Flushing the manager

Between two changes the flag of a package fits the row that the table has for
it: a package to be created has none, a package to be set has one. The flush of
such a manager does not panic, writes the flagged packages and no other row.
-/

namespace NpmFollower.PostgresDb

open Std

/-- The state of a package between two changes, for a table that has the given row. -/
structure LocalState.Settled (row : Option InternalDiffLogStateRow) (s : LocalState) : Prop where
  hash : ∀ st ∈ s.1, st.packagePackHash.isSome
  unknown : s.1 = none → row = none ∧ s.2 = .nothing
  create : s.2 = .create → row = none
  set : s.2 = .set → row.isSome
  nothing : s.2 = .nothing → row = none → s.1 = none

/-- What the lookup of a package finds: its entry in the map or the row of the table. -/
def LocalState.loaded (row : Option InternalDiffLogStateRow) : LocalState :=
  (row.map InternalDiffLogStateRow.load, .nothing)

theorem LocalState.settled_loaded (row : Option InternalDiffLogStateRow) :
    (loaded row).Settled row where
  hash := by
    intro st hst
    obtain ⟨r, _, rfl⟩ := Option.map_eq_some_iff.mp hst
    rfl
  unknown h := ⟨Option.map_eq_none_iff.mp h, rfl⟩
  create := by rintro ⟨⟩
  set := by rintro ⟨⟩
  nothing _ h := by rw [loaded, h]; rfl

/-- The row of the table after the flush. -/
def LocalState.flushed (name : String) (row : Option InternalDiffLogStateRow) (s : LocalState) :
    Option InternalDiffLogStateRow :=
  if s.2 = .nothing then row else s.row name

/-- A row built from a state is read back as that state. -/
theorem LocalState.load_of_row {name : String} {s : LocalState} {r : InternalDiffLogStateRow}
    (h : s.row name = some r) : s.1 = some r.load := by
  obtain ⟨st, f⟩ := s
  cases st with
  | none => cases h
  | some st =>
    obtain ⟨hash, versions⟩ := st
    cases hash with
    | none => cases h
    | some hash =>
      cases h
      simp only [InternalDiffLogStateRow.load, List.map_map, Function.comp_def]
      rw [show (fun e : Semver × InternalDiffLogVersionState =>
        (e.1, (⟨e.2.versionPackHash, e.2.deleted⟩ : InternalDiffLogVersionState))) = id from rfl,
        List.map_id, FiniteMap.ofList_toList]

theorem LocalState.packageName_of_row {name : String} {s : LocalState} {r : InternalDiffLogStateRow}
    (h : s.row name = some r) : r.packageName = name := by
  obtain ⟨_ | ⟨_ | hash, versions⟩, f⟩ := s
  · cases h
  · cases h
  · cases h
    rfl

theorem LocalState.Settled.row_isSome {row : Option InternalDiffLogStateRow} {s : LocalState}
    (hs : s.Settled row) (name : String) (hf : s.2 ≠ .nothing) : (s.row name).isSome := by
  obtain ⟨st, f⟩ := s
  cases st with
  | none => exact absurd (hs.unknown rfl).2 hf
  | some st =>
    obtain ⟨hash, hhash⟩ := Option.isSome_iff_exists.mp (hs.hash st rfl)
    simp [LocalState.row, hhash]

namespace InternalDiffLogStateTable

theorem createPackages_eq (rows : List (String × InternalDiffLogStateRow))
    (hrows : ∀ e ∈ rows, e.2.packageName = e.1) (hnodup : (rows.map Prod.fst).Nodup)
    (table : InternalDiffLogStateTable) (hnew : ∀ e ∈ rows, table[e.1]? = none) :
    createPackages table (rows.map Prod.snd) =
      some (rows.foldl (fun t e => t.insert e.1 e.2) table) := by
  induction rows generalizing table with
  | nil => rfl
  | cons e rows ih =>
    obtain ⟨hne, hnodup⟩ := List.nodup_cons.mp hnodup
    have hname : e.2.packageName = e.1 := hrows e List.mem_cons_self
    have hfree : e.1 ∉ table := by simpa using hnew e List.mem_cons_self
    have hrest (e' : String × InternalDiffLogStateRow) (he' : e' ∈ rows) :
        (table.insert e.1 e.2)[e'.1]? = none := by
      rw [FiniteMap.getElem?_insert_of_ne]
      · exact hnew e' (List.mem_cons_of_mem _ he')
      · exact fun h => hne (h ▸ List.mem_map_of_mem he')
    have htail := ih (fun e' he' => hrows e' (List.mem_cons_of_mem _ he')) hnodup
      (table.insert e.1 e.2) hrest
    simpa [createPackages, hname, hfree] using htail

theorem updatePackages_eq (rows : List (String × InternalDiffLogStateRow))
    (hrows : ∀ e ∈ rows, e.2.packageName = e.1) (table : InternalDiffLogStateTable)
    (hold : ∀ e ∈ rows, e.1 ∈ table) :
    updatePackages table (rows.map Prod.snd) =
      rows.foldl (fun t e => t.insert e.1 e.2) table := by
  induction rows generalizing table with
  | nil => rfl
  | cons e rows ih =>
    have hname : e.2.packageName = e.1 := hrows e List.mem_cons_self
    have hmem : e.1 ∈ table := hold e List.mem_cons_self
    have hrest (e' : String × InternalDiffLogStateRow) (he' : e' ∈ rows) :
        e'.1 ∈ table.insert e.1 e.2 := by
      rw [ExtTreeMap.mem_insert]
      exact .inr (hold e' (List.mem_cons_of_mem _ he'))
    have htail := ih (fun e' he' => hrows e' (List.mem_cons_of_mem _ he')) (table.insert e.1 e.2)
      hrest
    simpa [updatePackages, hname, hmem] using htail

end InternalDiffLogStateTable

namespace DiffStateManager

/-- The rows of the packages with a given flag. -/
def flagged (m : DiffStateManager) (f : FlushOp) : List (String × InternalDiffLogStateRow) :=
  FiniteMap.select m fun name s => if s.2 = f then s.row name else none

theorem mem_flagged {m : DiffStateManager} {f : FlushOp} {name : String}
    {r : InternalDiffLogStateRow} :
    (name, r) ∈ m.flagged f ↔ ∃ s, m[name]? = some s ∧ s.2 = f ∧ s.row name = some r := by
  rw [flagged, FiniteMap.mem_select, Option.bind_eq_some_iff]
  refine exists_congr fun s => and_congr_right fun _ => ?_
  split_ifs with h <;> simp [h]

/-- All packages of the manager are settled. -/
def Settled (m : DiffStateManager) (table : InternalDiffLogStateTable) : Prop :=
  ∀ (name : String) (s : LocalState), m[name]? = some s → s.Settled table[name]?

variable {m : DiffStateManager} {table : InternalDiffLogStateTable}

private theorem mapM_filter_eq {α β : Type} (l : List α) (p : α → Bool) (g : α → Option β)
    (h : ∀ a ∈ l, p a → (g a).isSome) :
    (l.filter p).mapM g = some (l.filterMap fun a => if p a then g a else none) := by
  induction l with
  | nil => rfl
  | cons a l ih =>
    have htail := ih fun b hb => h b (List.mem_cons_of_mem _ hb)
    cases hp : p a with
    | false => simp [hp, htail]
    | true =>
      obtain ⟨b, hb⟩ := Option.isSome_iff_exists.mp (h a List.mem_cons_self hp)
      simp [hp, hb, htail]

theorem flushRows_eq (hm : m.Settled table) : ∃ rows, m.flushRows = some rows ∧
    (rows.filter fun r => r.2 = .create).map Prod.fst = (m.flagged .create).map Prod.snd ∧
    (rows.filter fun r => ¬r.2 = .create).map Prod.fst = (m.flagged .set).map Prod.snd := by
  refine ⟨_, mapM_filter_eq m.toList _ _ ?_, ?_, ?_⟩
  · rintro ⟨name, s⟩ he hf
    have hs := hm name s (ExtTreeMap.mem_toList_iff_getElem?_eq_some.mp he)
    simpa using hs.row_isSome name (by simpa using hf)
  all_goals
    rw [flagged, FiniteMap.select, List.filter_filterMap, List.map_filterMap, List.map_filterMap]
    apply List.filterMap_congr
    rintro ⟨name, st, f⟩ _
    cases f <;> cases LocalState.row name (st, _) <;> simp

/-- The flush of a settled manager. -/
theorem flushToDb_spec (hm : m.Settled table) : ∃ table', m.flushToDb table = some table' ∧
    ∀ name : String, table'[name]? =
      match m[name]? with
      | some s => s.flushed name table[name]?
      | none => table[name]? := by
  obtain ⟨rows, hrows, hcreate, hset⟩ := flushRows_eq hm
  have hname (f : FlushOp) : ∀ e ∈ m.flagged f, e.2.packageName = e.1 := by
    rintro ⟨name, r⟩ he
    obtain ⟨s, _, _, hr⟩ := mem_flagged.mp he
    exact LocalState.packageName_of_row hr
  have hnodup (f : FlushOp) : ((m.flagged f).map Prod.fst).Nodup := FiniteMap.nodup_select_keys _ _
  have hnew : ∀ e ∈ m.flagged .create, table[e.1]? = none := by
    rintro ⟨name, r⟩ he
    obtain ⟨s, hs, hf, _⟩ := mem_flagged.mp he
    exact (hm name s hs).create hf
  let created := (m.flagged .create).foldl (fun t e => t.insert e.1 e.2) table
  -- a package to be set has a row, which the created ones have not touched
  have hkeep {name : String} {s : LocalState} (hs : m[name]? = some s) (hf : s.2 ≠ .create) :
      created[name]? = table[name]? := by
    apply FiniteMap.getElem?_foldl_insert_of_not_mem
    rintro ⟨name', r⟩ he rfl
    obtain ⟨s', hs', hf', _⟩ := mem_flagged.mp he
    rw [hs] at hs'
    cases hs'
    exact hf hf'
  have hold : ∀ e ∈ m.flagged .set, e.1 ∈ created := by
    rintro ⟨name, r⟩ he
    obtain ⟨s, hs, hf, _⟩ := mem_flagged.mp he
    have hrow := (hm name s hs).set hf
    rw [← hkeep hs (by simp [hf])] at hrow
    simpa using hrow
  refine ⟨(m.flagged .set).foldl (fun t e => t.insert e.1 e.2) created, ?_, fun name => ?_⟩
  · simp only [flushToDb, hrows, Option.bind_eq_bind, Option.bind_some,
      List.partition_eq_filter_filter, Function.comp_def, hcreate,
      InternalDiffLogStateTable.createPackages_eq _ (hname _) (hnodup _) _ hnew]
    have hnot : (rows.filter fun r => !decide (r.2 = .create)).map Prod.fst =
        (m.flagged .set).map Prod.snd := by simpa using hset
    rw [hnot, InternalDiffLogStateTable.updatePackages_eq _ (hname _) _ hold]
    rfl
  · have hother (f : FlushOp) (t : InternalDiffLogStateTable)
        (h : ∀ s, m[name]? = some s → s.2 ≠ f) :
        ((m.flagged f).foldl (fun t e => t.insert e.1 e.2) t)[name]? = t[name]? := by
      apply FiniteMap.getElem?_foldl_insert_of_not_mem
      rintro ⟨name', r⟩ he rfl
      obtain ⟨s, hs, hf, _⟩ := mem_flagged.mp he
      exact h s hs hf
    have hwrite {f : FlushOp} {s : LocalState} (t : InternalDiffLogStateTable)
        (hs : m[name]? = some s) (hf : s.2 = f) (hne : f ≠ .nothing) :
        ((m.flagged f).foldl (fun t e => t.insert e.1 e.2) t)[name]? = s.row name := by
      obtain ⟨r, hr⟩ := Option.isSome_iff_exists.mp
        ((hm name s hs).row_isSome name (hf ▸ hne))
      rw [hr]
      exact FiniteMap.getElem?_foldl_insert_of_mem (hnodup f) t (mem_flagged.mpr ⟨s, hs, hf, hr⟩)
    cases hs : m[name]? with
    | none =>
      rw [hother .set created (by simp [hs]), hother .create table (by simp [hs])]
    | some s =>
      obtain ⟨st, f⟩ := s
      cases f with
      | nothing =>
        rw [hother .set created (by simp [hs]), hother .create table (by simp [hs])]
        rfl
      | create =>
        rw [hother .set created (by simp [hs])]
        exact hwrite table hs rfl (by simp)
      | set => exact hwrite created hs rfl (by simp)

end DiffStateManager

end NpmFollower.PostgresDb
