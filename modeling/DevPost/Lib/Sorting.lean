import Mathlib.Data.List.Sort

/-! Lists that are kept sorted by a key: each new element is appended and the whole list
is sorted again, stably. The result is in the order of the key, so it is in the order of
some other measure, the time for instance, exactly when the two agree on its elements. -/

namespace Lib

variable {α β γ τ : Type*} [LinearOrder β] (key : α → β)

/-- The stable sort by a strict comparison: an element stays before the elements it does not
have to come after. -/
def stableSort (lt : α → α → Bool) (l : List α) : List α := l.insertionSort fun a b => ¬ lt b a

/-- The stable sort by a key. -/
def sortOn (l : List α) : List α := l.insertionSort fun a b => key a ≤ key b

def appendSort (l : List α) (a : α) : List α := sortOn key (l ++ [a])

/-- Append and sort, for one element after the other. -/
def feed (l xs : List α) : List α := xs.foldl (appendSort key) l

def InOrder (l : List α) : Prop := l.Pairwise fun a b => key a ≤ key b

instance (l : List α) : Decidable (InOrder key l) := by
  unfold InOrder
  infer_instance

theorem stableSort_eq_sortOn {lt : α → α → Bool} {key : α → β}
    (h : ∀ a b, lt a b = true ↔ key a < key b) (l : List α) : stableSort lt l = sortOn key l := by
  have hrel : (fun a b => ¬ lt b a = true) = fun a b => key a ≤ key b := by
    funext a b
    rw [h, not_lt]
  unfold stableSort sortOn
  congr!

theorem sortOn_perm (l : List α) : (sortOn key l).Perm l := List.perm_insertionSort _ l

theorem sortOn_inOrder (l : List α) : InOrder key (sortOn key l) := by
  have : Std.Total fun a b : α => key a ≤ key b := ⟨fun a b => le_total (key a) (key b)⟩
  have : IsTrans α fun a b => key a ≤ key b := ⟨fun _ _ _ => le_trans⟩
  exact List.pairwise_insertionSort _ l

theorem sortOn_eq_self {key : α → β} {l : List α} (h : InOrder key l) : sortOn key l = l :=
  h.insertionSort_eq

theorem sortOn_map (f : γ → α) (l : List γ) :
    sortOn key (l.map f) = (sortOn (key ∘ f) l).map f :=
  (List.map_insertionSort _ _ f l fun _ _ _ _ => Iff.rfl).symm

section Filter

variable (p : α → Bool)

theorem orderedInsert_of_forall_le {a : α} {l : List α} (h : ∀ b ∈ l, key a ≤ key b) :
    l.orderedInsert (fun a b => key a ≤ key b) a = a :: l := by
  cases l with
  | nil => rfl
  | cons b l => exact List.orderedInsert_cons_of_le _ l (h b List.mem_cons_self)

theorem filter_orderedInsert (a : α) {l : List α} (h : InOrder key l) :
    (l.orderedInsert (fun a b => key a ≤ key b) a).filter p =
      if p a then (l.filter p).orderedInsert (fun a b => key a ≤ key b) a else l.filter p := by
  induction l with
  | nil => by_cases hp : p a <;> simp [hp]
  | cons b l ih =>
    obtain ⟨hb, hl⟩ := List.pairwise_cons.1 h
    by_cases hle : key a ≤ key b
    · -- `a` goes in front, also of what the filter leaves
      have hall : ∀ c ∈ b :: l, key a ≤ key c := fun c hc =>
        (List.mem_cons.1 hc).elim (fun he => he ▸ hle) fun hc => hle.trans (hb c hc)
      rw [orderedInsert_of_forall_le key hall,
        orderedInsert_of_forall_le key fun c hc => hall c (List.mem_of_mem_filter hc)]
      exact List.filter_cons
    · rw [List.orderedInsert_cons, if_neg hle, List.filter_cons, ih hl]
      by_cases hpa : p a <;> by_cases hpb : p b <;> simp [hpa, hpb, hle]

theorem filter_sortOn (l : List α) : (sortOn key l).filter p = sortOn key (l.filter p) := by
  induction l with
  | nil => rfl
  | cons a l ih =>
    have hstep := filter_orderedInsert key p a (sortOn_inOrder key l)
    rw [ih] at hstep
    apply hstep.trans
    by_cases hp : p a <;> simp [sortOn, hp]

/-- One more element leaves what a filter finds alone just when the filter drops it and what
it finds is in order. -/
theorem filter_appendSort_eq_iff (l : List α) (a : α) :
    (appendSort key l a).filter p = l.filter p ↔ p a = false ∧ InOrder key (l.filter p) := by
  rw [appendSort, filter_sortOn, List.filter_append]
  constructor
  · intro h
    have hlen := (sortOn_perm key (l.filter p ++ [a].filter p)).length_eq
    have ha : p a = false := by
      by_contra hp
      simp [h, hp] at hlen
    have hin := sortOn_inOrder key (l.filter p ++ [a].filter p)
    rw [h] at hin
    exact ⟨ha, hin⟩
  · rintro ⟨ha, hin⟩
    simpa [ha] using sortOn_eq_self hin

end Filter

theorem feed_append (l xs ys : List α) : feed key l (xs ++ ys) = feed key (feed key l xs) ys :=
  List.foldl_append ..

theorem feed_perm (l xs : List α) : (feed key l xs).Perm (l ++ xs) := by
  induction xs generalizing l with
  | nil => simp [feed]
  | cons x xs ih =>
    apply (ih (appendSort key l x)).trans
    have h : (appendSort key l x ++ xs).Perm ((l ++ [x]) ++ xs) :=
      (sortOn_perm key _).append_right xs
    simpa using h

theorem feed_inOrder {l : List α} (h : InOrder key l) (xs : List α) :
    InOrder key (feed key l xs) := by
  induction xs generalizing l with
  | nil => exact h
  | cons x xs ih => exact ih (sortOn_inOrder key _)

theorem filter_feed_eq_iff (p : α → Bool) (l xs : List α) :
    (feed key l xs).filter p = l.filter p ↔
      (∀ x ∈ xs, p x = false) ∧ (xs = [] ∨ InOrder key (l.filter p)) := by
  constructor
  · intro h
    refine ⟨fun x hx => ?_, ?_⟩
    · have hperm := (feed_perm key l xs).filter p
      rw [h, List.filter_append] at hperm
      have hnil : xs.filter p = [] := by simpa using hperm.length_eq
      simpa using List.filter_eq_nil_iff.1 hnil x hx
    · cases xs with
      | nil => exact .inl rfl
      | cons x xs =>
        have hin : InOrder key (feed key l (x :: xs)) := feed_inOrder key (sortOn_inOrder key _) xs
        exact .inr (h ▸ List.Pairwise.sublist List.filter_sublist hin)
  · rintro ⟨hxs, hin⟩
    induction xs generalizing l with
    | nil => rfl
    | cons x xs ih =>
      have hin := hin.resolve_left (List.cons_ne_nil x xs)
      have hstep : (appendSort key l x).filter p = l.filter p :=
        (filter_appendSort_eq_iff key p l x).2 ⟨hxs x List.mem_cons_self, hin⟩
      rw [← hstep] at hin ⊢
      exact ih _ (fun y hy => hxs y (List.mem_cons_of_mem _ hy)) (.inr hin)

/-- A list in order stays in it, in its order, while others come between. -/
theorem feed_sublist {l : List α} (h : InOrder key l) (xs : List α) : l.Sublist (feed key l xs) := by
  induction xs generalizing l with
  | nil => exact .refl _
  | cons x xs ih =>
    have hstep : l.Sublist (appendSort key l x) := by
      have : Std.Total fun a b : α => key a ≤ key b := ⟨fun a b => le_total (key a) (key b)⟩
      have : IsTrans α fun a b => key a ≤ key b := ⟨fun _ _ _ => le_trans⟩
      exact List.sublist_insertionSort h (List.sublist_append_left l [x])
    exact hstep.trans (ih (sortOn_inOrder key _))

theorem feed_map (f : γ → α) (l xs : List γ) :
    feed key (l.map f) (xs.map f) = (feed (key ∘ f) l xs).map f := by
  induction xs generalizing l with
  | nil => rfl
  | cons x xs ih =>
    have hstep : appendSort key (l.map f) (f x) = (appendSort (key ∘ f) l x).map f := by
      rw [appendSort, ← List.map_singleton, ← List.map_append, sortOn_map, appendSort]
    exact (congrArg (feed key · (xs.map f)) hstep).trans (ih _)

/-- A list in the order of its key is in the order of a measure, that elements with one key
share, exactly when key and measure agree on its elements. -/
theorem inOrder_iff_agree [LinearOrder τ] {key : α → β} {measure : α → τ} {l : List α}
    (h : InOrder key l) (hinj : ∀ a ∈ l, ∀ b ∈ l, key a = key b → measure a = measure b) :
    InOrder measure l ↔ ∀ a ∈ l, ∀ b ∈ l, measure a < measure b → key a < key b := by
  constructor
  · intro hm a ha b hb hlt
    by_contra hle
    have hkey : key b < key a := lt_of_le_of_ne (not_lt.1 hle) fun he =>
      hlt.ne (hinj a ha b hb he.symm)
    obtain ⟨i, hi, rfl⟩ := List.getElem_of_mem ha
    obtain ⟨j, hj, rfl⟩ := List.getElem_of_mem hb
    -- `a` cannot come before `b` by the key, nor after it by the measure
    rcases lt_trichotomy i j with hij | rfl | hij
    · exact absurd (List.pairwise_iff_getElem.1 h i j hi hj hij) (not_le.2 hkey)
    · exact absurd hlt (lt_irrefl _)
    · exact absurd (List.pairwise_iff_getElem.1 hm j i hj hi hij) (not_le.2 hlt)
  · intro hagree
    refine List.Pairwise.imp_of_mem (fun {a b} ha hb hab => ?_) h
    exact not_lt.1 fun hlt => absurd hab (not_le.2 (hagree b hb a ha hlt))

/-- Callbacks that append to a list they can see and sort it feed the list. -/
theorem view_foldl_eq_feed {σ ι : Type*} (view : σ → List α) (f : σ → ι → σ) (item : ι → α)
    (h : ∀ s x, view (f s x) = appendSort key (view s) (item x)) (s : σ) (xs : List ι) :
    view (xs.foldl f s) = feed key (view s) (xs.map item) := by
  induction xs generalizing s with
  | nil => rfl
  | cons x xs ih =>
    calc view ((x :: xs).foldl f s) = feed key (view (f s x)) (xs.map item) := ih _
      _ = feed key (appendSort key (view s) (item x)) (xs.map item) := by rw [h]
      _ = feed key (view s) ((x :: xs).map item) := rfl

theorem feed_eq_append {key : α → β} {l xs : List α} (h : InOrder key (l ++ xs)) :
    feed key l xs = l ++ xs := by
  induction xs generalizing l with
  | nil => simp [feed]
  | cons x xs ih =>
    rw [List.append_cons] at h
    have hstart : InOrder key (l ++ [x]) := (List.pairwise_append.1 h).1
    have hsort : appendSort key l x = l ++ [x] := sortOn_eq_self hstart
    calc feed key l (x :: xs) = feed key (appendSort key l x) xs := rfl
      _ = l ++ [x] ++ xs := by rw [hsort, ih h]
      _ = l ++ x :: xs := (List.append_cons ..).symm

theorem feed_nil_eq_self_iff {key : α → β} {l : List α} : feed key [] l = l ↔ InOrder key l :=
  ⟨fun h => h ▸ feed_inOrder key .nil l, fun h => by simpa using feed_eq_append (l := []) h⟩

/-- What is fed shows some elements in the order of a measure exactly when key and measure
agree on these elements. -/
theorem feed_shows_iff [LinearOrder τ] (f : γ → α) {measure : γ → τ}
    (hinj : ∀ a b, key (f a) = key (f b) → measure a = measure b) (xs : List γ) :
    (∃ ys : List γ, ys.Perm xs ∧ feed key [] (xs.map f) = ys.map f ∧ InOrder measure ys) ↔
      ∀ a ∈ xs, ∀ b ∈ xs, measure a < measure b → key (f a) < key (f b) := by
  constructor
  · rintro ⟨ys, hperm, hshow, hm⟩
    have hkey : InOrder (key ∘ f) ys := by
      have hfeed : InOrder key (ys.map f) := hshow ▸ feed_inOrder key .nil (xs.map f)
      simpa only [InOrder, List.pairwise_map, Function.comp_apply] using hfeed
    have hagree := (inOrder_iff_agree hkey fun a _ b _ => hinj a b).1 hm
    exact fun a ha b hb => hagree a (hperm.mem_iff.2 ha) b (hperm.mem_iff.2 hb)
  · intro hagree
    have hperm : (feed (key ∘ f) [] xs).Perm xs := by simpa using feed_perm (key ∘ f) [] xs
    refine ⟨feed (key ∘ f) [] xs, hperm, by simpa using feed_map key f [] xs, ?_⟩
    refine (inOrder_iff_agree (feed_inOrder _ .nil xs) fun a _ b _ => hinj a b).2 ?_
    exact fun a ha b hb => hagree a (hperm.mem_iff.1 ha) b (hperm.mem_iff.1 hb)

end Lib
