import DevPost.Lib.Hub
import DevPost.Lib.Peers
import Mathlib.Algebra.BigOperators.Group.Finset.Basic
import Mathlib.Algebra.GroupWithZero.Nat
import Mathlib.Algebra.Order.BigOperators.Group.Finset

/-! Work that comes to an end. Running a task may put new tasks on the queue; if each task
run takes away more weight than it adds, the queue is empty after finitely many of them, in
whatever order they are run. -/

namespace Lib

section Drains

variable {σ ε : Type*} {step : σ → ε → Option σ} {I : σ → Prop} {works : ε → Prop}
  {weight : σ → ℕ} {s s' s₀ : σ} {evs : List ε}

/-- Every event of the kind `works` takes weight away, and where there is weight left one of
them can happen. -/
structure Drains (step : σ → ε → Option σ) (I : σ → Prop) (works : ε → Prop) (weight : σ → ℕ) :
    Prop where
  keeps : ∀ s e s', I s → works e → step s e = some s' → I s'
  lighter : ∀ s e s', I s → works e → step s e = some s' → weight s' < weight s
  next : ∀ s, I s → weight s ≠ 0 → ∃ e, works e ∧ (step s e).isSome

namespace Drains

variable (hd : Drains step I works weight)
include hd

theorem run (h : Path step (fun _ e => works e) s₀ evs s) (hI : I s₀) :
    I s ∧ evs.length + weight s ≤ weight s₀ := by
  induction h with
  | nil => exact ⟨hI, by simp⟩
  | snoc _ hw hs ih =>
    have hlt := hd.lighter _ _ _ ih.1 hw hs
    refine ⟨hd.keeps _ _ _ ih.1 hw hs, ?_⟩
    rw [List.length_append, List.length_singleton]
    omega

theorem weight_eq_zero (h : Path step (fun _ e => works e) s₀ evs s) (hI : I s₀)
    (hstuck : ∀ e, works e → step s e = none) : weight s = 0 := by
  by_contra hne
  obtain ⟨e, hw, he⟩ := hd.next s (hd.run h hI).1 hne
  rw [hstuck e hw] at he
  cases he

theorem ends (hI : I s₀) :
    ∃ evs s, Path step (fun _ e => works e) s₀ evs s ∧ weight s = 0 := by
  induction hn : weight s₀ using Nat.strong_induction_on generalizing s₀ with
  | _ n ih =>
    by_cases hz : weight s₀ = 0
    · exact ⟨[], s₀, .nil, hz⟩
    · obtain ⟨e, hw, he⟩ := hd.next s₀ hI hz
      obtain ⟨s₁, hs⟩ := Option.isSome_iff_exists.1 he
      obtain ⟨evs, s, hpath, hzero⟩ :=
        ih _ (hn ▸ hd.lighter _ _ _ hI hw hs) (hd.keeps _ _ _ hI hw hs) rfl
      exact ⟨e :: evs, s, .cons hw hs hpath, hzero⟩

end Drains

section Peer

variable {ι : Type*} [DecidableEq ι] [Fintype ι] {M : Peer σ ε}

/-- Machines that do not hear of each other's work come to an end together. -/
theorem Drains.all (hd : Drains M.step I works weight)
    (hsilent : ∀ s e, works e → M.echo s e = none) :
    Drains M.all (fun s => ∀ i : ι, I (s i)) (fun a => works a.2) fun s => ∑ i, weight (s i) := by
  have hparts : ∀ {s s' : ι → σ} {a : ι × ε}, works a.2 → M.all s a = some s' →
      M.step (s a.1) a.2 = some (s' a.1) ∧ ∀ j ≠ a.1, s' j = s j := by
    intro s s' a hw h
    refine ⟨Peer.all_actor h, fun j hj => ?_⟩
    have hj' := Peer.all_eq_some.1 h j
    rw [Peer.heard, if_neg hj, hsilent _ _ hw] at hj'
    exact (Option.some.inj hj').symm
  refine ⟨fun s a s' hI hw h i => ?_, fun s a s' hI hw h => ?_, fun s hI hne => ?_⟩
  · obtain ⟨hactor, hother⟩ := hparts hw h
    by_cases hi : i = a.1
    · rw [hi]
      exact hd.keeps _ _ _ (hI a.1) hw hactor
    · rw [hother i hi]
      exact hI i
  · obtain ⟨hactor, hother⟩ := hparts hw h
    refine Finset.sum_lt_sum (fun j _ => ?_)
      ⟨a.1, Finset.mem_univ _, hd.lighter _ _ _ (hI a.1) hw hactor⟩
    by_cases hj : j = a.1
    · rw [hj]
      exact (hd.lighter _ _ _ (hI a.1) hw hactor).le
    · rw [hother j hj]
  · obtain ⟨i, hi⟩ : ∃ i, weight (s i) ≠ 0 := by
      by_contra hall
      exact hne (Finset.sum_eq_zero fun i _ => not_not.1 fun hi => hall ⟨i, hi⟩)
    obtain ⟨e, hw, he⟩ := hd.next (s i) (hI i) hi
    obtain ⟨s', hs⟩ := Option.isSome_iff_exists.1 he
    refine ⟨(i, e), hw, ?_⟩
    have hall : M.all s (i, e) = some (Function.update s i s') := by
      refine Peer.all_eq_some.2 fun j => ?_
      by_cases hj : j = i
      · subst hj
        simpa [Peer.heard] using hs
      · simp [Peer.heard, hj, hsilent _ _ hw]
    simp [hall]

end Peer

end Drains

section Schedules

variable {σ ε : Type*} {step : σ → ε → Option σ} {works : ε → Prop}

/-- Where related states take related steps and are done together, two ways to do the work end
in related states, whichever events they choose. -/
theorem Path.ends_agree (R : σ → σ → Prop) (done : σ → Prop)
    (hstep : ∀ s t e e' s' t', R s t → works e → works e' →
      step s e = some s' → step t e' = some t' → R s' t')
    (hdone : ∀ s t, R s t → (done s ↔ done t))
    (hstop : ∀ s e, done s → works e → step s e = none) {s s' t t' : σ} {evs evs' : List ε}
    (h : Path step (fun _ e => works e) s evs s') (h' : Path step (fun _ e => works e) t evs' t')
    (hR : R s t) (hs' : done s') (ht' : done t') : R s' t' := by
  induction evs generalizing s t evs' with
  | nil =>
    obtain rfl := h.unique .nil
    cases evs' with
    | nil => exact h'.unique .nil ▸ hR
    | cons e' evs' =>
      obtain ⟨t₁, hw, ht₁, -⟩ := h'.uncons
      rw [hstop t e' ((hdone _ _ hR).1 hs') hw] at ht₁
      cases ht₁
  | cons e evs ih =>
    obtain ⟨s₁, hw, hs₁, hrest⟩ := h.uncons
    cases evs' with
    | nil =>
      obtain rfl := h'.unique .nil
      rw [hstop s e ((hdone _ _ hR).2 ht') hw] at hs₁
      cases hs₁
    | cons e' evs' =>
      obtain ⟨t₁, hw', ht₁, hrest'⟩ := h'.uncons
      exact ih hrest hrest' (hstep _ _ _ _ _ _ hR hw hw' hs₁ ht₁)

end Schedules

section Hub

variable {κ : Type*} [LinearOrder κ] {L ρ α τ : Type*} (dec : ρ → Option α)

/-- What running a task can still cause while the node has `n` children: an event dispatches
a block, other work registers a listener at most. -/
def Task.weight (n : ℕ) : Task L ρ α τ → ℕ
  | .event _ _ => 2
  | .block _ _ => 1
  | .other _ => 2 * n + 1

def Hub.weight (h : Hub κ L ρ α τ) : ℕ :=
  (h.queue.map (Task.weight h.node.entries.length)).sum

variable {h : Hub κ L ρ α τ} {q : List (Task L ρ α τ)}

theorem Hub.weight_eq_zero : h.weight = 0 ↔ h.queue = [] := by
  unfold weight
  cases h.queue with
  | nil => simp
  | cons t q => cases t <;> simp [Task.weight]

theorem Hub.weight_handle {l : L} {r : ρ} (hq : h.queue = .event l r :: q) :
    weight { h with queue := q ++ handle dec l r } < h.weight := by
  unfold weight handle
  rw [hq]
  cases dec r <;> simp [Task.weight]
  omega

theorem Hub.weight_block {l : L} {a : α} (hq : h.queue = .block l a :: q) :
    weight { h with queue := q } < h.weight := by
  simp [weight, hq, Task.weight]

theorem Hub.weight_other {t : τ} (hq : h.queue = .other t :: q) :
    weight { h with queue := q } < h.weight := by
  simp [weight, hq, Task.weight]

theorem Hub.weight_observe {t : τ} (hq : h.queue = .other t :: q) (l : L) :
    weight ({ h with queue := q }.observe l) < h.weight := by
  have hsnapshot : ((snapshot l (h.node.entries.map (·.2)) : List (Task L ρ α τ)).map
      (Task.weight h.node.entries.length)).sum = 2 * h.node.entries.length := by
    simp [snapshot, List.map_map, Function.comp_def, Task.weight, Nat.mul_comm]
  simp only [weight, observe, hq, List.map_append, List.sum_append, hsnapshot, List.map_cons,
    List.sum_cons, Task.weight]
  omega

end Hub

end Lib
