import Mathlib.Data.List.Lex
import Mathlib.Order.Lattice

/-! The alphabetical order of texts that are put together from fields. Where the fields in
each place are written so that none is the start of another, two texts compare as the lists
of their fields do: the first field that differs decides. -/

namespace Lib

variable {α : Type*} [LinearOrder α]

/-- The same word, or neither is the start of the other. -/
def Apart (u v : List α) : Prop := u = v ∨ ¬ u <+: v ∧ ¬ v <+: u

theorem append_lt_append_iff (u r s : List α) : u ++ r < u ++ s ↔ r < s := by
  induction u with
  | nil => rfl
  | cons a u ih => rw [List.cons_append, List.cons_append, List.cons_lt_cons_self, ih]

/-- Words that differ decide, whatever follows them. -/
theorem append_lt_append_iff_of_start {u v : List α} (r s : List α) (h : ¬ u <+: v)
    (h' : ¬ v <+: u) : u ++ r < v ++ s ↔ u < v := by
  induction u generalizing v with
  | nil => exact absurd (List.nil_prefix) h
  | cons a u ih =>
    cases v with
    | nil => exact absurd (List.nil_prefix) h'
    | cons b v =>
      rw [List.cons_append, List.cons_append, List.cons_lt_cons_iff, List.cons_lt_cons_iff]
      by_cases hab : a = b
      · subst hab
        rw [List.cons_prefix_cons, not_and] at h h'
        simp [ih (h rfl) (h' rfl)]
      · simp [hab]

/-- Two texts compare as the lists of their fields. -/
theorem flatten_lt_flatten_iff {us vs : List (List α)} (h : List.Forall₂ Apart us vs) :
    us.flatten < vs.flatten ↔ us < vs := by
  induction h with
  | nil => simp
  | @cons u v us vs huv _ ih =>
    rw [List.flatten_cons, List.flatten_cons, List.cons_lt_cons_iff]
    rcases huv with rfl | ⟨huv, hvu⟩
    · simp [append_lt_append_iff, ih]
    · have hne : u ≠ v := fun he => huv (he ▸ List.prefix_refl u)
      simp [append_lt_append_iff_of_start _ _ huv hvu, hne]

theorem apart_of_end {c : α} {u v : List α} (hu : c ∉ u) (hv : c ∉ v) :
    Apart (u ++ [c]) (v ++ [c]) := by
  have hstart : ∀ {u v : List α}, c ∉ v → u ++ [c] <+: v ++ [c] → u ++ [c] = v ++ [c] := by
    intro u v hv hp
    rcases List.prefix_concat_iff.1 hp with he | hp
    · exact he
    · exact absurd (hp.subset (by simp)) hv
  by_cases he : u ++ [c] = v ++ [c]
  · exact .inl he
  · exact .inr ⟨fun hp => he (hstart hv hp), fun hp => he (hstart hu hp).symm⟩

omit [LinearOrder α] in
theorem Apart.append_left {u v : List α} (h : Apart u v) (w : List α) :
    Apart (w ++ u) (w ++ v) := by
  rcases h with rfl | ⟨huv, hvu⟩
  · exact .inl rfl
  · exact .inr ⟨fun hp => huv ((List.prefix_append_right_inj w).1 hp),
      fun hp => hvu ((List.prefix_append_right_inj w).1 hp)⟩

/-- An end that comes before every character leaves the order of the words as it is. -/
theorem append_end_lt_iff {c : α} {u v : List α} (hu : ∀ a ∈ u, c < a) (hv : ∀ a ∈ v, c < a) :
    u ++ [c] < v ++ [c] ↔ u < v := by
  induction u generalizing v with
  | nil =>
    cases v with
    | nil => simp
    | cons b v =>
      have hb : c < b := hv b List.mem_cons_self
      simp [List.cons_lt_cons_iff, hb]
  | cons a u ih =>
    have ha : c < a := hu a List.mem_cons_self
    cases v with
    | nil => simp [List.cons_lt_cons_iff, ha.not_gt, ha.ne']
    | cons b v =>
      have ih := ih (fun x hx => hu x (List.mem_cons_of_mem _ hx))
        fun x hx => hv x (List.mem_cons_of_mem _ hx)
      rw [List.cons_append, List.cons_append, List.cons_lt_cons_iff, List.cons_lt_cons_iff, ih]

theorem apart_of_length {u v : List α} (h : u.length = v.length) : Apart u v := by
  by_cases he : u = v
  · exact .inl he
  · exact .inr ⟨fun hp => he (hp.eq_of_length h), fun hp => he (hp.eq_of_length h.symm).symm⟩

end Lib
