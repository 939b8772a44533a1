import Mathlib.Data.List.Basic
import Mathlib.Logic.Function.Basic

/-! A list view and its data source. The view obtains the number of rows when it is told to
reload, and from then on asks for rows below that number, while the owner of the source
changes it as it likes. The reads stay in range as long as each change comes with a reload. -/

namespace Lib

/-- The row count a list view last obtained, and the row and the value of each of its cells. -/
structure ListView (κ α : Type*) where
  rows : ℕ
  cells : κ → Option (ℕ × α)

namespace ListView

variable {κ α : Type*} {v : ListView κ α} {source : List α}

/-- The count is obtained anew and no cell keeps its row. -/
def reload (source : List α) : ListView κ α := ⟨source.length, fun _ => none⟩

/-- The view agrees with the source on how many rows there are and on what the cells hold. -/
structure Reads (v : ListView κ α) (source : List α) : Prop where
  rows : v.rows = source.length
  cells : ∀ cell row a, v.cells cell = some (row, a) → source[row]? = some a

theorem reads_reload : (reload source : ListView κ α).Reads source where
  rows := rfl
  cells _ _ _ h := by simp [reload] at h

theorem Reads.get (h : v.Reads source) {row : ℕ} (hrow : row < v.rows) :
    ∃ a, source[row]? = some a :=
  ⟨_, List.getElem?_eq_getElem (h.rows ▸ hrow)⟩

theorem Reads.row_lt (h : v.Reads source) {cell : κ} {row : ℕ} {a : α}
    (hcell : v.cells cell = some (row, a)) : row < v.rows := by
  obtain ⟨hrow, -⟩ := List.getElem?_eq_some_iff.1 (h.cells cell row a hcell)
  rwa [h.rows]

/-- Without the row of a cell the source is one row shorter than the view knows. -/
theorem Reads.length_eraseIdx (h : v.Reads source) {cell : κ} {row : ℕ} {a : α}
    (hcell : v.cells cell = some (row, a)) : (source.eraseIdx row).length + 1 = v.rows := by
  have hrow : row < source.length := h.rows ▸ h.row_lt hcell
  rw [List.length_eraseIdx_add_one hrow, h.rows]

section Layout

variable [DecidableEq κ]

/-- The row callback puts the value at a row into a cell. -/
def bind (v : ListView κ α) (source : List α) (row : ℕ) (cell : κ) : ListView κ α :=
  { v with cells := Function.update v.cells cell (source[row]?.map (row, ·)) }

/-- A layout pass asks for some rows, those below the known count. -/
def layout (v : ListView κ α) (source : List α) (l : List (ℕ × κ)) : ListView κ α :=
  l.foldl (fun v b => if b.1 < v.rows then v.bind source b.1 b.2 else v) v

theorem Reads.bind (h : v.Reads source) (row : ℕ) (cell : κ) :
    (v.bind source row cell).Reads source where
  rows := h.rows
  cells i r a hi := by
    by_cases hcell : i = cell
    · subst hcell
      obtain ⟨b, hb, he⟩ : ∃ b, source[row]? = some b ∧ (row, b) = (r, a) := by
        simpa [ListView.bind] using hi
      cases he
      exact hb
    · exact h.cells i r a (by simpa [ListView.bind, Function.update_of_ne hcell] using hi)

theorem Reads.layout (h : v.Reads source) (l : List (ℕ × κ)) : (v.layout source l).Reads source := by
  unfold ListView.layout
  induction l generalizing v with
  | nil => exact h
  | cons b l ih =>
    rw [List.foldl_cons]
    split_ifs
    · exact ih (h.bind b.1 b.2)
    · exact ih h

end Layout

end ListView

end Lib
