import DevPost.Lib.ListView
import DevPost.Spec.MyComments

/-! The table view of My Comments. Every change of `myPost` is followed by
`reloadData` in the same callback, so outside a callback the row count is the length
of `myPost` and a cell that is on a row shows the post at that row. With this, the
index `deletePost` removes is in range and `deleteRows` sees one row less. -/

namespace DevPost

open Lib

namespace MyCommentsController

variable {c : MyCommentsController} {l : Layout}

/-- What holds between two callbacks. -/
structure Bound (c : MyCommentsController) : Prop where
  rows : c.rows = c.myPost.length
  range : ∀ i row, (c.cells i).indexPath = some row → row < c.myPost.length
  post : ∀ i row, (c.cells i).indexPath = some row → (c.cells i).post = c.myPost[row]?

theorem bound_init : Bound {} where
  rows := rfl
  range i row h := by simp at h
  post i row h := by simp at h

theorem cellForRowAt_bound (h : Bound c) {row : ℕ} (hrow : row < c.rows) (cell : ℕ) :
    Bound (c.cellForRowAt row cell) where
  rows := h.rows
  range i r hr := by
    by_cases hi : i = cell
    · subst hi
      obtain rfl : row = r := by simpa [cellForRowAt] using hr
      exact h.rows ▸ hrow
    · simp only [cellForRowAt, Function.update_of_ne hi] at hr
      exact h.range i r hr
  post i r hr := by
    by_cases hi : i = cell
    · subst hi
      obtain rfl : row = r := by simpa [cellForRowAt] using hr
      simp [cellForRowAt]
    · simp only [cellForRowAt, Function.update_of_ne hi] at hr ⊢
      exact h.post i r hr

/-- A layout pass changes the cells only, by dequeuing some of them for rows. -/
theorem layout_rule {P : MyCommentsController → Prop}
    (h₀ : P { c with cells := fun i => { c.cells i with indexPath := none } })
    (hstep : ∀ c' row cell, P c' → row < c'.rows → P (c'.cellForRowAt row cell)) :
    P (c.layout l) := by
  unfold layout
  generalize { c with cells := fun i => { c.cells i with indexPath := none } } = c₀ at h₀ ⊢
  induction l generalizing c₀ with
  | nil => exact h₀
  | cons b l ih =>
    rw [List.foldl_cons]
    split_ifs with hb
    · exact ih _ (hstep _ _ _ h₀ hb)
    · exact ih _ h₀

@[simp] theorem layout_myPost : (c.layout l).myPost = c.myPost :=
  layout_rule (P := fun c' => c'.myPost = c.myPost) rfl fun _ _ _ h _ => h

theorem layout_bound (h : c.rows = c.myPost.length) : Bound (c.layout l) :=
  layout_rule ⟨h, fun i row hi => by simp at hi, fun i row hi => by simp at hi⟩
    fun _ _ cell hc hrow => cellForRowAt_bound hc hrow cell

theorem layout_post (h : c.rows = c.myPost.length) (i : ℕ) :
    ((c.layout l).cells i).post = (c.cells i).post ∨
      ∃ p ∈ c.myPost, ((c.layout l).cells i).post = some p := by
  refine (layout_rule (P := fun c' => (c'.rows = c.rows ∧ c'.myPost = c.myPost) ∧
    ((c'.cells i).post = (c.cells i).post ∨ ∃ p ∈ c.myPost, (c'.cells i).post = some p))
    ⟨⟨rfl, rfl⟩, .inl rfl⟩ ?_).2
  rintro c' row cell ⟨⟨hr, hp⟩, hpost⟩ hrow
  refine ⟨⟨hr, hp⟩, ?_⟩
  by_cases hi : i = cell
  · subst hi
    rw [hr, h] at hrow
    exact .inr ⟨c.myPost[row], List.getElem_mem hrow, by simp [cellForRowAt, hp, hrow]⟩
  · simpa [cellForRowAt, Function.update_of_ne hi] using hpost

@[simp] theorem reloadData_myPost : (c.reloadData l).myPost = c.myPost := layout_myPost

theorem reloadData_bound : Bound (c.reloadData l) := layout_bound rfl

theorem reloadData_post (i : ℕ) :
    ((c.reloadData l).cells i).post = (c.cells i).post ∨
      ∃ p ∈ c.myPost, ((c.reloadData l).cells i).post = some p :=
  layout_post (c := { c with rows := c.numberOfRowsInSection }) rfl i

/-- The table view of My Comments as a list view. -/
def view (c : MyCommentsController) : ListView ℕ Posts where
  rows := c.rows
  cells i := (c.cells i).indexPath.bind fun row => (c.cells i).post.map (row, ·)

theorem Bound.reads (h : c.Bound) : c.view.Reads c.myPost where
  rows := h.rows
  cells i row p hcell := by
    obtain ⟨r, hrow, q, hpost, he⟩ : ∃ r, (c.cells i).indexPath = some r ∧
        ∃ q, (c.cells i).post = some q ∧ (r, q) = (row, p) := by
      simpa [view, Option.bind_eq_some_iff] using hcell
    cases he
    rw [← h.post i row hrow, hpost]

theorem Bound.view_cells (h : c.Bound) {i row : ℕ} (hrow : (c.cells i).indexPath = some row) :
    ∃ p, c.view.cells i = some (row, p) := by
  obtain ⟨p, hp⟩ : ∃ p, c.myPost[row]? = some p :=
    ⟨_, List.getElem?_eq_getElem (h.range i row hrow)⟩
  exact ⟨p, by simp [view, hrow, h.post i row hrow, hp]⟩

theorem Bound.length_eraseIdx (h : c.Bound) {i row : ℕ} (hrow : (c.cells i).indexPath = some row) :
    (c.myPost.eraseIdx row).length + 1 = c.rows := by
  obtain ⟨p, hcell⟩ := h.view_cells hrow
  exact h.reads.length_eraseIdx hcell

/-- A confirmed deletion never crashes: the cell's row is in range, and the row count
`deleteRows` sees is one less than the one the table view held. -/
theorem deletePost_eq (h : Bound c) (cell : ℕ) :
    c.deletePost cell l = some (match (c.cells cell).indexPath with
      | none => c
      | some row =>
        { c with myPost := c.myPost.eraseIdx row, rows := c.rows - 1 }.reloadData l) := by
  unfold deletePost
  cases hi : (c.cells cell).indexPath with
  | none => rfl
  | some row =>
    have hrow : row < c.myPost.length := h.range cell row hi
    have hlen : (c.myPost.eraseIdx row).length + 1 = c.rows := h.length_eraseIdx hi
    have hdelete : deleteRows { c with myPost := c.myPost.eraseIdx row } =
        some { c with
          myPost := c.myPost.eraseIdx row, rows := (c.myPost.eraseIdx row).length } :=
      if_pos hlen
    dsimp only
    rw [if_pos hrow, hdelete]
    rfl

end MyCommentsController

end DevPost
