import DevPost.Lib.Path
import Mathlib.Data.List.Induction

/-! Machines that keep their state by key. An event concerns one key: whether it is enabled, and
what it does, depends on the cell of that key alone, and no other cell changes. Then a run is a
run of each cell with the events of its key, and events of different keys can be interleaved in
any way: it is a run again, and it leaves the same cells. -/

namespace Lib

variable {σ ε κ α : Type*} [DecidableEq κ] {step : σ → ε → Option σ} {cell : σ → κ → α}
  {key : ε → κ} {write : α → ε → Option α} {s₀ s : σ} {evs evs' : List ε}

/-- An event takes the cell of its key from one value to the next. -/
structure Keyed (step : σ → ε → Option σ) (cell : σ → κ → α) (key : ε → κ)
    (write : α → ε → Option α) : Prop where
  own : ∀ s e s', step s e = some s' → write (cell s (key e)) e = some (cell s' (key e))
  other : ∀ s e s', step s e = some s' → ∀ k ≠ key e, cell s' k = cell s k
  enabled : ∀ s e, (write (cell s (key e)) e).isSome → (step s e).isSome

/-- The events of a key. -/
def eventsOf (key : ε → κ) (k : κ) (evs : List ε) : List ε := evs.filter (key · = k)

theorem eventsOf_snoc (k : κ) (evs : List ε) (e : ε) :
    eventsOf key k (evs ++ [e]) = eventsOf key k evs ++ if key e = k then [e] else [] := by
  rw [eventsOf, List.filter_append, List.filter_singleton]
  simp [eventsOf]

namespace Keyed

variable (hk : Keyed step cell key write)
include hk

theorem cell_run (h : Path step anyStep s₀ evs s) (k : κ) :
    Path write anyStep (cell s₀ k) (eventsOf key k evs) (cell s k) := by
  induction h with
  | nil => exact .nil
  | @snoc evs s s' e _ _ hs ih =>
    rw [eventsOf_snoc]
    by_cases hkey : key e = k
    · subst hkey
      rw [if_pos rfl]
      exact .snoc ih trivial (hk.own _ _ _ hs)
    · rw [if_neg hkey, List.append_nil, hk.other _ _ _ hs k (Ne.symm hkey)]
      exact ih

/-- Runs of the cells are a run of the machine. -/
theorem run_of_cells (evs : List ε)
    (h : ∀ k, ∃ a, Path write anyStep (cell s₀ k) (eventsOf key k evs) a) :
    ∃ s, Path step anyStep s₀ evs s := by
  induction evs using List.reverseRecOn with
  | nil => exact ⟨s₀, .nil⟩
  | append_singleton evs e ih =>
    have hbefore : ∀ k, ∃ a, Path write anyStep (cell s₀ k) (eventsOf key k evs) a := by
      intro k
      obtain ⟨a, ha⟩ := h k
      rw [eventsOf_snoc] at ha
      split_ifs at ha
      · obtain ⟨a₁, ha₁, -⟩ := ha.unsnoc
        exact ⟨a₁, ha₁⟩
      · exact ⟨a, by simpa using ha⟩
    obtain ⟨s, hs⟩ := ih hbefore
    obtain ⟨a, ha⟩ := h (key e)
    rw [eventsOf_snoc, if_pos rfl] at ha
    obtain ⟨a₁, ha₁, -, hwrite⟩ := ha.unsnoc
    obtain rfl := ha₁.unique (hk.cell_run hs (key e))
    obtain ⟨s', hs'⟩ := Option.isSome_iff_exists.1 (hk.enabled s e (Option.isSome_of_mem hwrite))
    exact ⟨s', .snoc hs trivial hs'⟩

/-- Events that are the same for every key can be interleaved in another way. -/
theorem reorder (h : Path step anyStep s₀ evs s)
    (hsame : ∀ k, eventsOf key k evs' = eventsOf key k evs) :
    ∃ s', Path step anyStep s₀ evs' s' ∧ ∀ k, cell s' k = cell s k := by
  obtain ⟨s', hs'⟩ := hk.run_of_cells evs' fun k =>
    ⟨cell s k, by rw [hsame k]; exact hk.cell_run h k⟩
  refine ⟨s', hs', fun k => ?_⟩
  have hcell := hk.cell_run hs' k
  rw [hsame k] at hcell
  exact hcell.unique (hk.cell_run h k)

end Keyed

end Lib
