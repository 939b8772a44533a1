import Mathlib.Data.List.Basic

/-! Guarded runs of a deterministic machine. A machine is its step function; a
path records the events taken, each of them allowed by a condition on the state
before it. A safety result is one invariant carried along a path. -/

namespace Lib

variable {σ ε : Type*} {step : σ → ε → Option σ} {ok : σ → ε → Prop} {s₀ s₁ s : σ}

/-- The events `evs` lead from `s₀` to `s`, and `ok` held before each of them. -/
inductive Path (step : σ → ε → Option σ) (ok : σ → ε → Prop) (s₀ : σ) : List ε → σ → Prop
  | nil : Path step ok s₀ [] s₀
  | snoc {evs : List ε} {s s' : σ} {e : ε} :
      Path step ok s₀ evs s → ok s e → step s e = some s' → Path step ok s₀ (evs ++ [e]) s'

/-- The condition that forbids nothing. -/
def anyStep : σ → ε → Prop := fun _ _ => True

theorem Path.invariant {evs : List ε} (h : Path step ok s₀ evs s) (I : σ → Prop) (h₀ : I s₀)
    (hstep : ∀ s e s', I s → ok s e → step s e = some s' → I s') : I s := by
  induction h with
  | nil => exact h₀
  | snoc _ hok hs ih => exact hstep _ _ _ ih hok hs

theorem Path.attach {evs : List ε} (h : Path step ok s₀ evs s) (I : σ → Prop) (h₀ : I s₀)
    (hstep : ∀ s e s', I s → ok s e → step s e = some s' → I s') :
    Path step (fun s e => ok s e ∧ I s) s₀ evs s := by
  induction h with
  | nil => exact .nil
  | snoc hpath hok hs ih => exact .snoc ih ⟨hok, hpath.invariant I h₀ hstep⟩ hs

theorem Path.mono {ok' : σ → ε → Prop} {evs : List ε} (h : Path step ok s₀ evs s)
    (hok : ∀ s e, ok s e → ok' s e) : Path step ok' s₀ evs s := by
  induction h with
  | nil => exact .nil
  | snoc _ ho hs ih => exact .snoc ih (hok _ _ ho) hs

theorem Path.trans {xs ys : List ε} (h : Path step ok s₀ xs s₁) (h' : Path step ok s₁ ys s) :
    Path step ok s₀ (xs ++ ys) s := by
  induction h' with
  | nil => simpa using h
  | snoc _ hok hs ih =>
    rw [← List.append_assoc]
    exact .snoc ih hok hs

theorem Path.cons {e : ε} {ys : List ε} (hok : ok s₀ e) (hs : step s₀ e = some s₁)
    (h : Path step ok s₁ ys s) : Path step ok s₀ (e :: ys) s :=
  Path.trans (Path.snoc .nil hok hs) h

theorem Path.first {xs : List ε} (h : Path step ok s₀ xs s) :
    xs = [] ∧ s = s₀ ∨
      ∃ e ys s₁, xs = e :: ys ∧ ok s₀ e ∧ step s₀ e = some s₁ ∧ Path step ok s₁ ys s := by
  induction h with
  | nil => exact .inl ⟨rfl, rfl⟩
  | @snoc evs s s' e hpath hok hs ih =>
    refine .inr ?_
    rcases ih with ⟨rfl, rfl⟩ | ⟨e₀, ys, s₁, rfl, hok₁, hs₁, hrest⟩
    · exact ⟨e, [], s', rfl, hok, hs, .nil⟩
    · exact ⟨e₀, ys ++ [e], s₁, rfl, hok₁, hs₁, .snoc hrest hok hs⟩

theorem Path.uncons {e : ε} {ys : List ε} (h : Path step ok s₀ (e :: ys) s) :
    ∃ s₁, ok s₀ e ∧ step s₀ e = some s₁ ∧ Path step ok s₁ ys s := by
  rcases h.first with ⟨hnil, -⟩ | ⟨e', ys', s₁, hcons, hok, hs, hrest⟩
  · cases hnil
  · obtain ⟨rfl, rfl⟩ := List.cons.inj hcons
    exact ⟨s₁, hok, hs, hrest⟩

theorem Path.unsnoc {evs : List ε} {e : ε} (h : Path step ok s₀ (evs ++ [e]) s) :
    ∃ s₁, Path step ok s₀ evs s₁ ∧ ok s₁ e ∧ step s₁ e = some s := by
  generalize hxs : evs ++ [e] = xs at h
  cases h with
  | nil => simp at hxs
  | snoc hpath hok hs =>
    obtain ⟨rfl, he⟩ := List.append_inj' hxs rfl
    obtain rfl := List.singleton_inj.1 he
    exact ⟨_, hpath, hok, hs⟩

/-- The events of a path determine where it ends. -/
theorem Path.unique {s' : σ} {evs : List ε} (h : Path step ok s₀ evs s)
    (h' : Path step ok s₀ evs s') : s = s' := by
  induction h generalizing s' with
  | nil =>
    generalize hnil : [] = xs at h'
    cases h' with
    | nil => rfl
    | snoc => simp at hnil
  | snoc _ _ hs ih =>
    obtain ⟨s₁, hpath, -, hs'⟩ := h'.unsnoc
    obtain rfl := ih hpath
    exact Option.some.inj (hs.symm.trans hs')

/-- A state on the way, the first and the last included, had the property. -/
def Once (step : σ → ε → Option σ) (ok : σ → ε → Prop) (s₀ : σ) (evs : List ε) (P : σ → Prop) :
    Prop :=
  ∃ xs ys s, evs = xs ++ ys ∧ Path step ok s₀ xs s ∧ P s

theorem Once.now {evs : List ε} {P : σ → Prop} (h : Path step ok s₀ evs s) (hP : P s) :
    Once step ok s₀ evs P := ⟨evs, [], s, by simp, h, hP⟩

theorem Once.snoc {evs : List ε} {P : σ → Prop} (h : Once step ok s₀ evs P) (e : ε) :
    Once step ok s₀ (evs ++ [e]) P := by
  obtain ⟨xs, ys, s, rfl, hpath, hP⟩ := h
  exact ⟨xs, ys ++ [e], s, by simp, hpath, hP⟩

/-- A state on the way and the events until then had the property. -/
def OnceAfter (step : σ → ε → Option σ) (ok : σ → ε → Prop) (s₀ : σ) (evs : List ε)
    (P : List ε → σ → Prop) : Prop :=
  ∃ xs ys s, evs = xs ++ ys ∧ Path step ok s₀ xs s ∧ P xs s

theorem OnceAfter.now {evs : List ε} {P : List ε → σ → Prop} (h : Path step ok s₀ evs s)
    (hP : P evs s) : OnceAfter step ok s₀ evs P := ⟨evs, [], s, by simp, h, hP⟩

theorem OnceAfter.snoc {evs : List ε} {P : List ε → σ → Prop} (h : OnceAfter step ok s₀ evs P)
    (e : ε) : OnceAfter step ok s₀ (evs ++ [e]) P := by
  obtain ⟨xs, ys, s, rfl, hpath, hP⟩ := h
  exact ⟨xs, ys ++ [e], s, by simp, hpath, hP⟩

/-- A step on the way had the property, with the state before it. -/
def OnceStep (step : σ → ε → Option σ) (ok : σ → ε → Prop) (s₀ : σ) (evs : List ε)
    (P : σ → ε → Prop) : Prop :=
  ∃ xs e ys s, evs = xs ++ e :: ys ∧ Path step ok s₀ xs s ∧ P s e

theorem OnceStep.now {evs : List ε} {P : σ → ε → Prop} {e : ε} (h : Path step ok s₀ evs s)
    (hP : P s e) : OnceStep step ok s₀ (evs ++ [e]) P := ⟨evs, e, [], s, rfl, h, hP⟩

theorem OnceStep.snoc {evs : List ε} {P : σ → ε → Prop} (h : OnceStep step ok s₀ evs P) (e : ε) :
    OnceStep step ok s₀ (evs ++ [e]) P := by
  obtain ⟨xs, e', ys, s, rfl, hpath, hP⟩ := h
  exact ⟨xs, e', ys ++ [e], s, by simp, hpath, hP⟩

/-- Run a list of events, stopping at the first that is not enabled. -/
def exec (step : σ → ε → Option σ) : σ → List ε → Option σ
  | s, [] => some s
  | s, e :: evs => (step s e).bind (exec step · evs)

/-- The machine that refuses the events its condition forbids. -/
def guarded (step : σ → ε → Option σ) (ok : σ → ε → Prop) [∀ s e, Decidable (ok s e)] :
    σ → ε → Option σ :=
  fun s e => if ok s e then step s e else none

instance (s : σ) (e : ε) : Decidable (anyStep s e) := inferInstanceAs (Decidable True)

/-- A run that evaluates is a path. -/
theorem Path.of_exec [∀ s e, Decidable (ok s e)] {evs : List ε}
    (h : exec (guarded step ok) s₀ evs = some s) : Path step ok s₀ evs s := by
  induction evs generalizing s₀ with
  | nil =>
    obtain rfl : s₀ = s := by simpa [exec] using h
    exact .nil
  | cons e evs ih =>
    simp only [exec, guarded] at h
    split at h
    · rename_i hok
      obtain ⟨s₁, hs, hrest⟩ := Option.bind_eq_some_iff.1 h
      exact .cons hok hs (ih hrest)
    · simp at h

theorem Path.of_exec_get [∀ s e, Decidable (ok s e)] {evs : List ε}
    (h : (exec (guarded step ok) s₀ evs).isSome) :
    Path step ok s₀ evs ((exec (guarded step ok) s₀ evs).get h) :=
  .of_exec (Option.some_get h).symm

end Lib
