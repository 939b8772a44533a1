import Mathlib.Data.List.Sort
import Mathlib.Order.Basic

/-! Finite maps as lists of entries in strictly increasing key order. The order
is carried by the structure, so two tables with the same lookups are equal and
an enumeration is always in key order. -/

namespace Lib

/-- A finite map from `κ` to `α`. -/
@[ext] structure Table (κ : Type*) [LinearOrder κ] (α : Type*) where
  entries : List (κ × α)
  sorted : entries.Pairwise (·.1 < ·.1)
deriving DecidableEq

namespace Table

variable {κ : Type*} [LinearOrder κ] {α β : Type*}

def empty : Table κ α := ⟨[], .nil⟩

instance : EmptyCollection (Table κ α) := ⟨empty⟩
instance : Inhabited (Table κ α) := ⟨empty⟩

def lookup (t : Table κ α) (k : κ) : Option α := t.entries.lookup k

/-- Put an entry in front of the first entry with a larger key. -/
def insertEntry (k : κ) (a : α) : List (κ × α) → List (κ × α)
  | [] => [(k, a)]
  | e :: es => if k < e.1 then (k, a) :: e :: es else e :: insertEntry k a es

theorem insertEntry_perm (k : κ) (a : α) (es : List (κ × α)) :
    (insertEntry k a es).Perm ((k, a) :: es) := by
  induction es with
  | nil => exact .refl _
  | cons e es ih =>
    simp only [insertEntry]
    split_ifs
    · exact .refl _
    · exact (ih.cons e).trans (.swap _ _ _)

theorem insertEntry_sorted (k : κ) (a : α) {es : List (κ × α)}
    (hs : es.Pairwise (·.1 < ·.1)) (hk : ∀ e ∈ es, e.1 ≠ k) :
    (insertEntry k a es).Pairwise (·.1 < ·.1) := by
  induction es with
  | nil => simp [insertEntry]
  | cons e es ih =>
    obtain ⟨he, hes⟩ := List.pairwise_cons.1 hs
    simp only [insertEntry]
    split_ifs with hlt
    · refine List.pairwise_cons.2 ⟨fun x hx => ?_, hs⟩
      rcases List.mem_cons.1 hx with rfl | hx
      · exact hlt
      · exact hlt.trans (he x hx)
    · have hlt' : e.1 < k := lt_of_le_of_ne (not_lt.1 hlt) (hk e (by simp))
      refine List.pairwise_cons.2 ⟨fun x hx => ?_, ih hes fun x hx => hk x (by simp [hx])⟩
      rcases List.mem_cons.1 ((insertEntry_perm k a es).mem_iff.1 hx) with rfl | hx
      · exact hlt'
      · exact he x hx

def erase (t : Table κ α) (k : κ) : Table κ α where
  entries := t.entries.filter (·.1 ≠ k)
  sorted := t.sorted.filter _

/-- Replace the entry at `k`, or create it. -/
def set (t : Table κ α) (k : κ) (a : α) : Table κ α where
  entries := insertEntry k a (t.erase k).entries
  sorted := insertEntry_sorted k a (t.erase k).sorted fun e he => by
    simpa using (List.mem_filter.1 he).2

/-- Set every given entry, in order. -/
def merge (t : Table κ α) (vals : List (κ × α)) : Table κ α :=
  vals.foldl (fun t v => t.set v.1 v.2) t

def ofList (vals : List (κ × α)) : Table κ α := merge ∅ vals

theorem keys_nodup (t : Table κ α) : (t.entries.map (·.1)).Nodup :=
  List.pairwise_map.2 (t.sorted.imp fun h => h.ne)

theorem lookup_eq_some {t : Table κ α} {k : κ} {a : α} :
    t.lookup k = some a ↔ (k, a) ∈ t.entries := by
  obtain ⟨es, hs⟩ := t
  simp only [lookup]
  induction es with
  | nil => simp
  | cons e es ih =>
    obtain ⟨he, hes⟩ := List.pairwise_cons.1 hs
    rw [List.lookup_cons]
    by_cases hk : k = e.1
    · subst hk
      have hnot : (e.1, a) ∉ es := fun h => (he _ h).ne rfl
      simp [hnot, Prod.ext_iff, eq_comm]
    · have hne : (k, a) ≠ e := fun h => hk (congrArg Prod.fst h)
      rw [beq_false_of_ne hk]
      simpa [hne] using ih hes

theorem lookup_eq_none {t : Table κ α} {k : κ} :
    t.lookup k = none ↔ ∀ a, (k, a) ∉ t.entries := by
  simp only [← lookup_eq_some, Option.eq_none_iff_forall_ne_some, ne_eq]

theorem ext_lookup {t t' : Table κ α} (h : ∀ k, t.lookup k = t'.lookup k) : t = t' := by
  have hmem : ∀ e, e ∈ t.entries ↔ e ∈ t'.entries := fun e => by
    rw [← lookup_eq_some, ← lookup_eq_some, h]
  have hperm : t.entries.Perm t'.entries := (List.perm_ext_iff_of_nodup
    (.of_map _ t.keys_nodup) (.of_map _ t'.keys_nodup)).2 hmem
  exact Table.ext (hperm.eq_of_pairwise (fun _ _ _ _ h h' => (lt_asymm h h').elim)
    t.sorted t'.sorted)

theorem lookup_eq_none_of_keys {t : Table κ α} {ks : List κ} (h : ∀ e ∈ t.entries, e.1 ∈ ks)
    {k : κ} (hk : k ∉ ks) : t.lookup k = none :=
  lookup_eq_none.2 fun _ hm => hk (h _ hm)

@[simp] theorem lookup_empty (k : κ) : (∅ : Table κ α).lookup k = none := rfl

@[simp] theorem entries_empty : (∅ : Table κ α).entries = [] := rfl

theorem mem_erase {t : Table κ α} {k : κ} {e : κ × α} :
    e ∈ (t.erase k).entries ↔ e ∈ t.entries ∧ e.1 ≠ k := by
  simp [erase]

theorem mem_set {t : Table κ α} {k : κ} {a : α} {e : κ × α} :
    e ∈ (t.set k a).entries ↔ e = (k, a) ∨ e ∈ t.entries ∧ e.1 ≠ k := by
  rw [set, (insertEntry_perm k a _).mem_iff, List.mem_cons, mem_erase]

@[simp] theorem lookup_erase_self (t : Table κ α) (k : κ) : (t.erase k).lookup k = none :=
  lookup_eq_none.2 fun _ h => (mem_erase.1 h).2 rfl

@[simp] theorem lookup_set_self (t : Table κ α) (k : κ) (a : α) :
    (t.set k a).lookup k = some a :=
  lookup_eq_some.2 (mem_set.2 (.inl rfl))

theorem lookup_erase_of_ne (t : Table κ α) {k k' : κ} (h : k' ≠ k) :
    (t.erase k).lookup k' = t.lookup k' :=
  Option.ext fun a => by simp [lookup_eq_some, mem_erase, h]

theorem lookup_set_of_ne (t : Table κ α) {k k' : κ} (a : α) (h : k' ≠ k) :
    (t.set k a).lookup k' = t.lookup k' :=
  Option.ext fun b => by simp [lookup_eq_some, mem_set, h]

theorem lookup_set (t : Table κ α) (k k' : κ) (a : α) :
    (t.set k a).lookup k' = if k' = k then some a else t.lookup k' := by
  split_ifs with h
  · rw [h, lookup_set_self]
  · exact lookup_set_of_ne t a h

theorem set_perm_of_lookup_eq_none {t : Table κ α} {k : κ} (h : t.lookup k = none) (a : α) :
    (t.set k a).entries.Perm ((k, a) :: t.entries) := by
  have hk : t.entries.filter (·.1 ≠ k) = t.entries := by
    refine List.filter_eq_self.2 fun e he => decide_eq_true fun hek => ?_
    exact lookup_eq_none.1 h e.2 (by rw [← hek]; exact he)
  have he : (t.erase k).entries = t.entries := hk
  change (insertEntry k a (t.erase k).entries).Perm _
  rw [he]
  exact insertEntry_perm k a t.entries

theorem set_ne_empty (t : Table κ α) (k : κ) (a : α) : t.set k a ≠ ∅ := fun h => by
  have := lookup_set_self t k a
  simp [h] at this

/-- The last value given for a key wins, and the other keys are left alone. -/
theorem lookup_merge (t : Table κ α) (vals : List (κ × α)) (k : κ) :
    (t.merge vals).lookup k = (vals.reverse.lookup k).or (t.lookup k) := by
  induction vals generalizing t with
  | nil => simp [merge]
  | cons v vals ih =>
    have hstep : t.merge (v :: vals) = (t.set v.1 v.2).merge vals := rfl
    rw [hstep, ih, List.reverse_cons, List.lookup_append, lookup_set, List.lookup_cons]
    by_cases hk : k = v.1
    · cases hl : vals.reverse.lookup k <;> simp [hk]
    · have hb : (k == v.1) = false := beq_false_of_ne hk
      cases hl : vals.reverse.lookup k <;> simp [hk, hb]

end Table

end Lib
