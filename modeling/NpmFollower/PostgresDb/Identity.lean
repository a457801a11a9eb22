import NpmFollower.PostgresDb.Connection

/-! # Identity columns

The rows of a table stand in the order of their ids, which are below the next
value of the identity column.
-/

namespace NpmFollower.PostgresDb

namespace Table

variable {ρ : Type} {id : ρ → ℤ} {t t' : Table ρ}

structure Identity (t : Table ρ) (id : ρ → ℤ) : Prop where
  sorted : (t.rows.map id).Pairwise (· < ·)
  bound : ∀ r ∈ t.rows, id r < t.nextId

theorem identity_empty : (empty : Table ρ).Identity id := ⟨List.Pairwise.nil, by simp [empty]⟩

namespace Identity

theorem nodup (h : t.Identity id) : (t.rows.map id).Nodup :=
  h.sorted.imp fun hlt => ne_of_lt hlt

/-- Rows may change in other columns, and values of the identity column may get lost. -/
theorem of_map_eq (h : t.Identity id) (hrows : t'.rows.map id = t.rows.map id)
    (hnext : t.nextId ≤ t'.nextId) : t'.Identity id where
  sorted := hrows ▸ h.sorted
  bound r hr := by
    have hmem : id r ∈ t.rows.map id := hrows ▸ List.mem_map_of_mem hr
    obtain ⟨r', hr', heq⟩ := List.mem_map.mp hmem
    exact heq ▸ (h.bound r' hr').trans_le hnext

theorem insert (h : t.Identity id) {r : ρ} (hr : id r = t.nextId) :
    (({ t with nextId := t.nextId + 1 } : Table ρ).insert r).Identity id where
  sorted := by
    rw [Table.insert, List.map_append, List.map_singleton, List.pairwise_append]
    refine ⟨h.sorted, List.pairwise_singleton _ _, ?_⟩
    rintro i hi j hj
    obtain ⟨r', hr', rfl⟩ := List.mem_map.mp hi
    rw [List.mem_singleton.mp hj, hr]
    exact h.bound r' hr'
  bound r' hr' := by
    rcases List.mem_append.mp hr' with hr' | hr'
    · exact (h.bound r' hr').trans (lt_add_one _)
    · rw [List.mem_singleton.mp hr', hr]
      exact lt_add_one _

end Identity

end Table

end NpmFollower.PostgresDb
