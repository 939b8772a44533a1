import DevPost.Lib.Path
import Mathlib.Data.Fintype.Basic

/-! Machines made of machines. A part of a machine takes some of its events, so a run of
the whole is a run of the part; and copies of one machine hear of each other: when one takes
an event, the others take its echo in the same step, and a step that one of them refuses does
not happen. If each copy follows an abstract machine, call by call, all of them together
follow one. -/

namespace Lib

section Follow

variable {σ τ ε δ : Type*} {step : σ → ε → Option σ} {ok : σ → ε → Prop}

/-- Take an event, if there is one. -/
def follow (step : σ → ε → Option σ) (s : σ) : Option ε → Option σ
  | none => some s
  | some e => step s e

@[simp] theorem follow_none (s : σ) : follow step s none = some s := rfl

@[simp] theorem follow_some (s : σ) (e : ε) : follow step s (some e) = step s e := rfl

theorem Path.follow {s₀ s s' : σ} {evs : List ε} {o : Option ε} (h : Path step ok s₀ evs s)
    (hok : ∀ e ∈ o, ok s e) (hs : Lib.follow step s o = some s') :
    Path step ok s₀ (evs ++ o.toList) s' := by
  cases o with
  | none =>
    obtain rfl := Option.some.inj hs
    simpa using h
  | some e => exact .snoc h (hok e rfl) hs

variable {step' : τ → δ → Option τ} {ok' : τ → δ → Prop}

theorem Path.project (part : σ → τ) (event : σ → ε → Option δ) {s₀ s : σ} {evs : List ε}
    (h : Path step ok s₀ evs s)
    (hstep : ∀ s e s', step s e = some s' → Lib.follow step' (part s) (event s e) = some (part s'))
    (hok : ∀ s e s', ok s e → step s e = some s' → ∀ e' ∈ event s e, ok' (part s) e') :
    ∃ evs', Path step' ok' (part s₀) evs' (part s) ∧
      ∀ e ∈ evs, ∀ e', (∀ s, event s e = some e') → e' ∈ evs' := by
  induction h with
  | nil => exact ⟨[], .nil, by simp⟩
  | @snoc evs s s' e _ hoke hs ih =>
    obtain ⟨evs', hpath, hmem⟩ := ih
    refine ⟨evs' ++ (event s e).toList, hpath.follow (hok s e s' hoke hs) (hstep s e s' hs), ?_⟩
    intro a ha a' hevent
    rcases List.mem_append.1 ha with ha | ha
    · exact List.mem_append_left _ (hmem a ha a' hevent)
    · rw [← List.mem_singleton.1 ha, hevent s]
      simp

/-- The calls behind the events of a run. -/
def callsOf (step : σ → ε → Option σ) (call : σ → ε → Option τ) : σ → List ε → List τ
  | _, [] => []
  | s, e :: evs =>
    (call s e).toList ++
      match step s e with
      | some s' => callsOf step call s' evs
      | none => []

theorem callsOf_snoc {call : σ → ε → Option τ} {s₀ s : σ} {evs : List ε}
    (h : Path step ok s₀ evs s) (e : ε) :
    callsOf step call s₀ (evs ++ [e]) = callsOf step call s₀ evs ++ (call s e).toList := by
  induction evs generalizing s₀ with
  | nil =>
    obtain rfl := h.unique .nil
    simp only [List.nil_append, callsOf]
    split <;> simp
  | cons a evs ih =>
    obtain ⟨s₁, -, hs, hrest⟩ := h.uncons
    simp [callsOf, hs, ih hrest]

end Follow

/-- A machine, and what the others hear of an event that it takes. -/
structure Peer (σ ε : Type*) where
  step : σ → ε → Option σ
  echo : σ → ε → Option ε

namespace Peer

variable {ι σ ε : Type*} [DecidableEq ι] (M : Peer σ ε)

/-- The event that the copy `j` takes in a step of all. -/
def heard (j : ι) (s : ι → σ) (a : ι × ε) : Option ε :=
  if j = a.1 then some a.2 else M.echo (s a.1) a.2

variable [Fintype ι]

/-- The step of all copies in which one of them takes an event. -/
def all (s : ι → σ) (a : ι × ε) : Option (ι → σ) :=
  if h : ∀ j, (follow M.step (s j) (M.heard j s a)).isSome then
    some fun j => (follow M.step (s j) (M.heard j s a)).get (h j)
  else none

variable {M} {s s' s₀ : ι → σ} {a : ι × ε}

theorem all_eq_some :
    M.all s a = some s' ↔ ∀ j, follow M.step (s j) (M.heard j s a) = some (s' j) := by
  unfold all
  constructor
  · intro h j
    split_ifs at h with hall
    rw [← Option.some.inj h]
    exact (Option.some_get _).symm
  · intro h
    rw [dif_pos fun j => Option.isSome_of_mem (h j)]
    exact congrArg some (funext fun j => Option.get_of_mem _ (h j))

theorem all_actor (h : M.all s a = some s') : M.step (s a.1) a.2 = some (s' a.1) := by
  have hactor := all_eq_some.1 h a.1
  rwa [heard, if_pos rfl] at hactor

variable {ok : (ι → σ) → ι × ε → Prop} {evs : List (ι × ε)}

/-- The run of one copy has its own events. -/
theorem run_of (okOf : σ → ε → Prop) (h : Path M.all ok s₀ evs s) (j : ι)
    (hok : ∀ s a s', ok s a → M.all s a = some s' → ∀ e ∈ M.heard j s a, okOf (s j) e) :
    ∃ evs', Path M.step okOf (s₀ j) evs' (s j) ∧ ∀ e, (j, e) ∈ evs → e ∈ evs' := by
  obtain ⟨evs', hpath, hmem⟩ := h.project (· j) (M.heard j)
    (fun s a s' hs => all_eq_some.1 hs j) hok
  exact ⟨evs', hpath, fun e he => hmem (j, e) he e fun s => if_pos rfl⟩

section Simulation

variable {β γ : Type*} {abstract : β → γ → Option β} {call : σ → ε → Option γ} {R : β → σ → Prop}
  (hstep : ∀ b c e c', M.step c e = some c' → R b c →
    ∃ b', follow abstract b (call c e) = some b' ∧ R b' c')
  (hsilent : ∀ c e, M.echo c e = none → call c e = none)
  (hecho : ∀ c e e', M.echo c e = some e' → ∀ d, call d e' = call c e)
include hstep hsilent hecho

/-- The copies follow the abstract machine together: an echo makes the same call. -/
theorem simulates_step (h : M.all s a = some s') {b : β} (hs : ∀ j, R b (s j)) :
    ∃ b', follow abstract b (call (s a.1) a.2) = some b' ∧ ∀ j, R b' (s' j) := by
  obtain ⟨b', hb', hactor⟩ := hstep b _ _ _ (all_actor h) (hs a.1)
  refine ⟨b', hb', fun j => ?_⟩
  have hj := all_eq_some.1 h j
  by_cases hja : j = a.1
  · rw [hja]
    exact hactor
  rw [heard, if_neg hja] at hj
  cases hheard : M.echo (s a.1) a.2 with
  | none =>
    rw [hheard] at hj
    rw [hsilent _ _ hheard] at hb'
    rw [← Option.some.inj hb', ← Option.some.inj hj]
    exact hs j
  | some e' =>
    rw [hheard] at hj
    obtain ⟨b'', hb'', hsame⟩ := hstep b _ _ _ hj (hs j)
    rw [hecho _ _ _ hheard (s j), hb'] at hb''
    exact Option.some.inj hb'' ▸ hsame

theorem simulates (h : Path M.all ok s₀ evs s) {b₀ : β} (hs₀ : ∀ j, R b₀ (s₀ j)) :
    ∃ b, Path abstract anyStep b₀ (callsOf M.all (fun s a => call (s a.1) a.2) s₀ evs) b ∧
      ∀ j, R b (s j) := by
  induction h with
  | nil => exact ⟨b₀, .nil, hs₀⟩
  | @snoc evs s s' a hpath _ hs ih =>
    obtain ⟨b, hb, hR⟩ := ih
    obtain ⟨b', hcall, hR'⟩ := simulates_step hstep hsilent hecho hs hR
    rw [callsOf_snoc hpath]
    exact ⟨b', hb.follow (fun _ _ => trivial) hcall, hR'⟩

end Simulation

end Peer

end Lib
