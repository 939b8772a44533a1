import DevPost.Lib.Sorting
import Mathlib.Data.List.Count
import Mathlib.Data.List.Induction
import Mathlib.Data.List.Sort
import Mathlib.Data.List.Perm.Basic
import Mathlib.Logic.Function.Basic

/-! One visible list with two kinds of feeders: an appender, which adds to the
list and re-sorts it, and rebuilders, each of which grows a list of its own and
puts it in the visible one's place. Deliveries are taken from a FIFO sequence, so
what the list shows once all of them are made is a fold over the sequence. -/

namespace Lib

/-- Who a delivery is for. -/
inductive Feeder
  | append
  | rebuild (r : ℕ)
deriving DecidableEq

structure Board (α : Type*) where
  visible : List α
  own : ℕ → List α

namespace Board

variable {α : Type*} (order : List α → List α)

def deliver (b : Board α) (d : Feeder × α) : Board α :=
  match d.1 with
  | .append => { b with visible := order (b.visible ++ [d.2]) }
  | .rebuild r =>
    { visible := b.own r ++ [d.2], own := Function.update b.own r (b.own r ++ [d.2]) }

/-- Make every delivery of a sequence. -/
def settle (b : Board α) (ds : List (Feeder × α)) : Board α := ds.foldl (deliver order) b

/-- The deliveries of a sequence that are for the rebuilder `r`. -/
def forRebuild (r : ℕ) (ds : List (Feeder × α)) : List α :=
  ds.filterMap fun d => if d.1 = .rebuild r then some d.2 else none

@[simp] theorem settle_nil (b : Board α) : b.settle order [] = b := rfl

@[simp] theorem settle_cons (b : Board α) (d : Feeder × α) (ds : List (Feeder × α)) :
    b.settle order (d :: ds) = (b.deliver order d).settle order ds := rfl

theorem settle_append (b : Board α) (xs ys : List (Feeder × α)) :
    b.settle order (xs ++ ys) = (b.settle order xs).settle order ys := List.foldl_append ..

@[simp] theorem forRebuild_append (r : ℕ) (xs ys : List (Feeder × α)) :
    forRebuild r (xs ++ ys) = forRebuild r xs ++ forRebuild r ys := List.filterMap_append ..

theorem forRebuild_eq_nil {r : ℕ} {ds : List (Feeder × α)} (h : ∀ d ∈ ds, d.1 ≠ .rebuild r) :
    forRebuild r ds = [] :=
  List.filterMap_eq_nil_iff.2 fun d hd => if_neg (h d hd)

theorem forRebuild_cons (r : ℕ) (d : Feeder × α) (ds : List (Feeder × α)) :
    forRebuild r (d :: ds) = forRebuild r [d] ++ forRebuild r ds :=
  forRebuild_append r [d] ds

theorem forRebuild_raise (r : ℕ) (fs : List Feeder) (a : α) :
    forRebuild r (fs.map (·, a)) = List.replicate (fs.count (.rebuild r)) a := by
  induction fs with
  | nil => rfl
  | cons f fs ih =>
    rw [List.map_cons, forRebuild_cons, ih, List.count_cons]
    by_cases hf : f = .rebuild r
    · subst hf; simp [forRebuild, List.replicate_succ]
    · simp [forRebuild, hf]

theorem forRebuild_snapshot (r r' : ℕ) (as : List α) :
    forRebuild r (as.map (.rebuild r', ·)) = if r' = r then as else [] := by
  by_cases hr : r' = r <;> simp [forRebuild, List.filterMap_map, hr]

theorem own_deliver (b : Board α) (d : Feeder × α) (r : ℕ) :
    (b.deliver order d).own r = b.own r ++ forRebuild r [d] := by
  obtain ⟨f, a⟩ := d
  cases f with
  | append => simp [deliver, forRebuild]
  | rebuild r' =>
    by_cases h : r' = r
    · subst h; simp [deliver, forRebuild]
    · simp [deliver, forRebuild, h, Function.update_of_ne (Ne.symm h)]

theorem own_settle (b : Board α) (ds : List (Feeder × α)) (r : ℕ) :
    (b.settle order ds).own r = b.own r ++ forRebuild r ds := by
  induction ds generalizing b with
  | nil => simp [forRebuild]
  | cons d ds ih =>
    rw [settle_cons, ih, own_deliver, List.append_assoc, ← forRebuild_cons]

theorem own_settle_of_notMem (b : Board α) {ds : List (Feeder × α)} {r : ℕ}
    (h : ∀ d ∈ ds, d.1 ≠ .rebuild r) : (b.settle order ds).own r = b.own r := by
  rw [own_settle, forRebuild_eq_nil h, List.append_nil]

theorem visible_settle_snoc (b : Board α) (ds : List (Feeder × α)) (r : ℕ) (a : α) :
    (b.settle order (ds ++ [(.rebuild r, a)])).visible =
      (b.settle order (ds ++ [(.rebuild r, a)])).own r := by
  rw [settle_append]
  simp [settle, deliver]

/-- A first snapshot for a rebuilder shows the snapshot, unless it is empty. -/
theorem visible_settle_snapshot (b : Board α) {r : ℕ} (as : List α) (h : b.own r = []) :
    (b.settle order (as.map (.rebuild r, ·))).visible = if as = [] then b.visible else as := by
  rcases List.eq_nil_or_concat' as with rfl | ⟨l, a, rfl⟩
  · rfl
  · have hown : forRebuild r ((l ++ [a]).map (Feeder.rebuild r, ·)) = l ++ [a] := by
      rw [forRebuild_snapshot, if_pos rfl]
    have hv := visible_settle_snoc order b (l.map (.rebuild r, ·)) r a
    rw [← List.map_singleton (f := fun x => (Feeder.rebuild r, x)), ← List.map_append,
      own_settle, hown, h] at hv
    simpa using hv

section Perm

variable {order} (horder : ∀ l, (order l).Perm l)
include horder

theorem visible_settle_appends (b : Board α) (as : List α) :
    (b.settle order (as.map (.append, ·))).visible.Perm (b.visible ++ as) := by
  induction as generalizing b with
  | nil => simp
  | cons a as ih =>
    apply (ih _).trans
    have h : ((deliver order b (.append, a)).visible ++ as).Perm ((b.visible ++ [a]) ++ as) :=
      (horder _).append_right as
    simpa using h

theorem visible_settle_eq_nil (b : Board α) (ds : List (Feeder × α)) :
    (b.settle order ds).visible = [] ↔ ds = [] ∧ b.visible = [] := by
  rcases List.eq_nil_or_concat' ds with rfl | ⟨ds, ⟨f, a⟩, rfl⟩
  · simp
  · rw [settle_append]
    cases f with
    | append =>
      have hne : order ((b.settle order ds).visible ++ [a]) ≠ [] := fun h => by
        have := (horder ((b.settle order ds).visible ++ [a])).length_eq
        simp [h] at this
      simpa [deliver] using hne
    | rebuild r => simp [settle, deliver]

theorem mem_visible_settle (b : Board α) (ds : List (Feeder × α)) {a : α}
    (ha : a ∈ (b.settle order ds).visible) :
    a ∈ b.visible ∨ (∃ r, a ∈ b.own r) ∨ ∃ d ∈ ds, d.2 = a := by
  induction ds using List.reverseRecOn with
  | nil => exact .inl ha
  | append_singleton ds d ih =>
    have hlater : (∃ d ∈ ds, d.2 = a) → ∃ d' ∈ ds ++ [d], d'.2 = a := fun ⟨d', hd', he⟩ =>
      ⟨d', List.mem_append_left _ hd', he⟩
    obtain ⟨f, x⟩ := d
    rw [settle_append] at ha
    cases f with
    | append =>
      rcases List.mem_append.1 ((horder _).mem_iff.1 ha) with ha | ha
      · exact (ih ha).imp_right (.imp_right hlater)
      · exact .inr (.inr ⟨(.append, x), by simp, (List.mem_singleton.1 ha).symm⟩)
    | rebuild r =>
      have ha : a ∈ (b.settle order ds).own r ++ [x] := ha
      rw [own_settle, List.mem_append, List.mem_append] at ha
      rcases ha with (ha | ha) | ha
      · exact .inr (.inl ⟨r, ha⟩)
      · obtain ⟨d, hd, he⟩ := List.mem_filterMap.1 ha
        split_ifs at he
        exact .inr (.inr (hlater ⟨d, hd, Option.some.inj he⟩))
      · exact .inr (.inr ⟨(.rebuild r, x), by simp, (List.mem_singleton.1 ha).symm⟩)

end Perm

/-- One addition, delivered to rebuilders that all hold `xs`: each then holds `xs` and
the addition, and so does the visible list when there is a rebuilder. -/
theorem settle_rebuilds (b : Board α) {xs : List α} (a : α) {rs : List ℕ} (hrs : rs.Nodup)
    (hown : ∀ r ∈ rs, (b.own r).Perm xs) :
    (∀ r ∈ rs, ((b.settle order (rs.map (.rebuild ·, a))).own r).Perm (xs ++ [a])) ∧
      (rs ≠ [] → (b.settle order (rs.map (.rebuild ·, a))).visible.Perm (xs ++ [a])) := by
  have hall : ∀ r ∈ rs, ((b.settle order (rs.map (.rebuild ·, a))).own r).Perm (xs ++ [a]) := by
    intro r hr
    have hcount : (rs.map Feeder.rebuild).count (.rebuild r) = 1 := by
      rw [List.count_map_of_injective _ _ fun _ _ h => Feeder.rebuild.inj h,
        List.count_eq_one_of_mem hrs hr]
    have hone : forRebuild r (rs.map (Feeder.rebuild ·, a)) = [a] := by
      have := forRebuild_raise r (rs.map Feeder.rebuild) a
      rwa [List.map_map, hcount] at this
    rw [own_settle, hone]
    exact (hown r hr).append_right [a]
  refine ⟨hall, fun hne => ?_⟩
  obtain ⟨p, r, rfl⟩ := (List.eq_nil_or_concat' rs).resolve_left hne
  have hv := visible_settle_snoc order b (p.map (.rebuild ·, a)) r a
  rw [← List.map_singleton (f := fun r => (Feeder.rebuild r, a)), ← List.map_append] at hv
  rw [hv]
  exact hall r (by simp)

/-- Every item in a list or on its way to one has the property. -/
structure Holds (P : α → Prop) (b : Board α) (ds : List (Feeder × α)) : Prop where
  visible : ∀ a ∈ b.visible, P a
  own : ∀ r, ∀ a ∈ b.own r, P a
  coming : ∀ d ∈ ds, P d.2

section Holds

variable {order}
variable {P Q : α → Prop} {b : Board α} {ds : List (Feeder × α)}

theorem Holds.mono (h : b.Holds P ds) (himp : ∀ a, P a → Q a) : b.Holds Q ds where
  visible a ha := himp a (h.visible a ha)
  own r a ha := himp a (h.own r a ha)
  coming d hd := himp d.2 (h.coming d hd)

theorem Holds.push (h : b.Holds P ds) {new : List (Feeder × α)} (hnew : ∀ d ∈ new, P d.2) :
    b.Holds P (ds ++ new) where
  visible := h.visible
  own := h.own
  coming d hd := (List.mem_append.1 hd).elim (h.coming d) (hnew d)

theorem Holds.deliver (horder : ∀ l, (order l).Perm l) {d : Feeder × α}
    (h : b.Holds P (d :: ds)) : (b.deliver order d).Holds P ds := by
  have hd : P d.2 := h.coming d List.mem_cons_self
  have hown : ∀ r, ∀ a ∈ (b.deliver order d).own r, P a := by
    intro r a ha
    rw [own_deliver, List.mem_append] at ha
    rcases ha with ha | ha
    · exact h.own r a ha
    · obtain ⟨x, hx, he⟩ := List.mem_filterMap.1 ha
      obtain rfl := List.mem_singleton.1 hx
      split_ifs at he
      exact (Option.some.inj he) ▸ hd
  refine ⟨fun a ha => ?_, hown, fun x hx => h.coming x (List.mem_cons_of_mem _ hx)⟩
  obtain ⟨f, a'⟩ := d
  cases f with
  | append =>
    rcases List.mem_append.1 ((horder _).mem_iff.1 ha) with ha | ha
    · exact h.visible a ha
    · exact List.mem_singleton.1 ha ▸ hd
  | rebuild r => exact hown r a (by simpa [Board.deliver] using ha)

end Holds

/-- No item is shown twice, now or later: every list holds distinct items, a rebuilder's
also together with what is on its way to it, and what is on its way to the appender
is nowhere yet and arrives there first. -/
structure Fresh {ι : Type*} (id : α → ι) (b : Board α) (ds : List (Feeder × α)) : Prop where
  visible : (b.visible.map id).Nodup
  own : ∀ r, ((b.own r ++ forRebuild r ds).map id).Nodup
  notVisible : ∀ a, (.append, a) ∈ ds → id a ∉ b.visible.map id
  notOwn : ∀ a, (.append, a) ∈ ds → ∀ r, id a ∉ (b.own r).map id
  first : ds.Pairwise fun x y => y.1 = .append → id x.2 ≠ id y.2

section Fresh

variable {order}
variable {ι : Type*} {id : α → ι} {b : Board α} {ds : List (Feeder × α)}

theorem mem_forRebuild {r : ℕ} {a : α} : a ∈ forRebuild r ds ↔ (.rebuild r, a) ∈ ds := by
  simp only [forRebuild, List.mem_filterMap]
  constructor
  · rintro ⟨⟨f, x⟩, hd, he⟩
    split_ifs at he with hf
    obtain rfl : x = a := by simpa using he
    obtain rfl : f = .rebuild r := hf
    exact hd
  · exact fun h => ⟨_, h, by simp⟩

theorem fresh_nil (hv : b.visible = []) (ho : ∀ r, b.own r = []) : b.Fresh id [] where
  visible := by simp [hv]
  own r := by simp [ho, forRebuild]
  notVisible := by simp
  notOwn := by simp
  first := .nil

theorem fresh_appends {as : List α} (hv : b.visible = []) (ho : ∀ r, b.own r = [])
    (has : (as.map id).Nodup) : b.Fresh id (as.map (.append, ·)) where
  visible := by simp [hv]
  own r := by
    have : forRebuild r (as.map (Feeder.append, ·)) = [] :=
      forRebuild_eq_nil fun d hd => by
        obtain ⟨a, -, rfl⟩ := List.mem_map.1 hd
        simp
    simp [ho, this]
  notVisible := by simp [hv]
  notOwn := by simp [ho]
  first := List.pairwise_map.2 ((List.pairwise_map.1 has).imp fun h _ he => h he)

theorem Fresh.deliver (horder : ∀ l, (order l).Perm l) {d : Feeder × α}
    (h : b.Fresh id (d :: ds)) : (b.deliver order d).Fresh id ds := by
  obtain ⟨f, a⟩ := d
  obtain ⟨hfirst, hrest⟩ := List.pairwise_cons.1 h.first
  have hne : ∀ a', (.append, a') ∈ ds → id a' ≠ id a := fun a' ha' => (hfirst _ ha' rfl).symm
  have hown : ∀ r, (((b.deliver order (f, a)).own r ++ forRebuild r ds).map id).Nodup := by
    intro r
    rw [own_deliver, List.append_assoc, ← forRebuild_append]
    exact h.own r
  have hnot : ∀ a', (.append, a') ∈ ds →
      ∀ r, id a' ∉ ((b.deliver order (f, a)).own r).map id := by
    intro a' ha' r
    have hmem := h.notOwn a' (List.mem_cons_of_mem _ ha') r
    rw [own_deliver, List.map_append, List.mem_append]
    rintro (hm | hm)
    · exact hmem hm
    · obtain ⟨x, hx, hid⟩ := List.mem_map.1 hm
      have hxa : (Feeder.rebuild r, x) = (f, a) := List.mem_singleton.1 (mem_forRebuild.1 hx)
      obtain rfl : x = a := (Prod.ext_iff.1 hxa).2
      exact hne a' ha' hid.symm
  cases f with
  | append =>
    have hp := ((horder (b.visible ++ [a])).map id)
    have ha : id a ∉ b.visible.map id := h.notVisible a (by simp)
    have hmem : ∀ i, i ∈ (b.deliver order (.append, a)).visible.map id ↔
        i ∈ b.visible.map id ∨ i = id a := by
      intro i
      have := hp.mem_iff (a := i)
      simpa only [Board.deliver, List.map_append, List.mem_append, List.map_singleton,
        List.mem_singleton] using this
    refine ⟨?_, hown, fun a' ha' => ?_, hnot, hrest⟩
    · apply hp.nodup_iff.2
      rw [List.map_append, List.nodup_append]
      exact ⟨h.visible, by simp, fun x hx y hy => by
        rw [List.map_singleton, List.mem_singleton] at hy
        exact fun he => ha (by rw [← hy, ← he]; exact hx)⟩
    · rw [hmem]
      rintro (hm | hm)
      · exact h.notVisible a' (List.mem_cons_of_mem _ ha') hm
      · exact hne a' ha' hm
  | rebuild r =>
    have hvis : (b.deliver order (.rebuild r, a)).visible =
        (b.deliver order (.rebuild r, a)).own r := by simp [Board.deliver]
    refine ⟨?_, hown, fun a' ha' => ?_, hnot, hrest⟩
    · rw [hvis]
      have := hown r
      rw [List.map_append] at this
      exact (List.nodup_append.1 this).1
    · rw [hvis]
      exact hnot a' ha' r

theorem Fresh.sublist (h : b.Fresh id ds) {l : List α} (hl : l.Sublist b.visible) :
    (⟨l, b.own⟩ : Board α).Fresh id ds where
  visible := h.visible.sublist (hl.map id)
  own := h.own
  notVisible a ha hm := h.notVisible a ha ((hl.map id).subset hm)
  notOwn := h.notOwn
  first := h.first

/-- What is sent after everything else must be new to the lists it will reach. -/
theorem Fresh.push (h : b.Fresh id ds) {new : List (Feeder × α)}
    (hown : ∀ r, ((b.own r ++ forRebuild r (ds ++ new)).map id).Nodup)
    (hnew : ∀ a, (.append, a) ∈ new → id a ∉ b.visible.map id ∧
      (∀ r, id a ∉ (b.own r).map id) ∧ ∀ d ∈ ds, id d.2 ≠ id a)
    (hfirst : new.Pairwise fun x y => y.1 = .append → id x.2 ≠ id y.2) :
    b.Fresh id (ds ++ new) where
  visible := h.visible
  own := hown
  notVisible a ha := by
    rcases List.mem_append.1 ha with ha | ha
    · exact h.notVisible a ha
    · exact (hnew a ha).1
  notOwn a ha := by
    rcases List.mem_append.1 ha with ha | ha
    · exact h.notOwn a ha
    · exact (hnew a ha).2.1
  first := by
    refine List.pairwise_append.2 ⟨h.first, hfirst, ?_⟩
    rintro x hx ⟨f, a⟩ hy rfl
    exact (hnew a hy).2.2 x hx

theorem Fresh.push_snapshot (h : b.Fresh id ds) {r : ℕ} {as : List α} (hown : b.own r = [])
    (hds : ∀ d ∈ ds, d.1 ≠ .rebuild r) (has : (as.map id).Nodup) :
    b.Fresh id (ds ++ as.map (.rebuild r, ·)) := by
  refine h.push (fun r' => ?_) (fun a ha => ?_) ?_
  · by_cases hr : r' = r
    · subst hr
      rw [forRebuild_append, forRebuild_eq_nil hds, hown, forRebuild_snapshot, if_pos rfl]
      exact has
    · rw [forRebuild_append, forRebuild_snapshot, if_neg (Ne.symm hr), List.append_nil]
      exact h.own r'
  · simp at ha
  · exact List.pairwise_map.2 (List.pairwise_of_forall fun _ _ he => by simp at he)

/-- One new item, sent to distinct feeders with the appender at most in front. -/
theorem Fresh.push_raise {P : α → Prop} (h : b.Fresh id ds) (hP : b.Holds P ds) {a : α}
    (ha : ∀ x, P x → id x ≠ id a) {fs : List Feeder} (hfs : fs.Nodup) (happ : .append ∉ fs.tail) :
    b.Fresh id (ds ++ fs.map (·, a)) := by
  have hlist : ∀ l : List α, (∀ x ∈ l, P x) → id a ∉ l.map id := by
    intro l hl hm
    obtain ⟨x, hx, he⟩ := List.mem_map.1 hm
    exact ha x (hl x hx) he
  have hd : ∀ d ∈ ds, id d.2 ≠ id a := fun d hd => ha d.2 (hP.coming d hd)
  refine h.push (fun r => ?_) (fun x hx => ?_) ?_
  · rw [forRebuild_append, ← List.append_assoc, List.map_append, forRebuild_raise,
      List.map_replicate]
    refine List.nodup_append.2 ⟨h.own r, ?_, fun i hi j hj hij => ?_⟩
    · exact List.nodup_replicate.2 (List.nodup_iff_count_le_one.1 hfs _)
    · obtain rfl : j = id a := List.eq_of_mem_replicate hj
      subst hij
      rw [List.map_append] at hi
      rcases List.mem_append.1 hi with hi | hi
      · exact hlist _ (hP.own r) hi
      · obtain ⟨x, hx, hxa⟩ := List.mem_map.1 hi
        exact hd _ (mem_forRebuild.1 hx) hxa
  · obtain ⟨f, -, hfx⟩ := List.mem_map.1 hx
    obtain rfl : a = x := (Prod.ext_iff.1 hfx).2
    exact ⟨hlist _ hP.visible, fun r => hlist _ (hP.own r), hd⟩
  · cases fs with
    | nil => exact .nil
    | cons f fs =>
      have hne : ∀ g ∈ fs, g ≠ .append := fun g hg he => happ (he ▸ hg)
      refine List.pairwise_map.2 (List.pairwise_cons.2 ⟨fun g hg he => absurd he (hne g hg), ?_⟩)
      exact List.Pairwise.imp_of_mem (fun _ hg _ he => absurd he (hne _ hg))
        (List.pairwise_of_forall (R := fun _ _ => True) fun _ _ => trivial)

end Fresh

section Ordered

variable {β : Type*} [LinearOrder β] {key : α → β} {b : Board α}

/-- All the lists are in the order of the key. -/
structure Ordered (key : α → β) (b : Board α) : Prop where
  visible : InOrder key b.visible
  own : ∀ r, InOrder key (b.own r)

/-- A delivery to a rebuilder comes after everything it has been told before. -/
def InTurn (key : α → β) (b : Board α) (d : Feeder × α) : Prop :=
  match d.1 with
  | .append => True
  | .rebuild r => ∀ a ∈ b.own r, key a ≤ key d.2

instance (d : Feeder × α) : Decidable (b.InTurn key d) := by
  unfold InTurn
  split <;> infer_instance

theorem inOrder_snoc {l : List α} {a : α} :
    InOrder key (l ++ [a]) ↔ InOrder key l ∧ ∀ x ∈ l, key x ≤ key a := by
  simp [InOrder, List.pairwise_append]

/-- The visible list is in order after a delivery just when the delivery was in turn. -/
theorem Ordered.visible_deliver_iff (h : b.Ordered key) (d : Feeder × α) :
    InOrder key (b.deliver (sortOn key) d).visible ↔ b.InTurn key d := by
  obtain ⟨f, a⟩ := d
  cases f with
  | append => exact iff_of_true (sortOn_inOrder key _) trivial
  | rebuild r => exact inOrder_snoc.trans (and_iff_right (h.own r))

theorem Ordered.deliver (h : b.Ordered key) {d : Feeder × α} (hd : b.InTurn key d) :
    (b.deliver (sortOn key) d).Ordered key := by
  refine ⟨(h.visible_deliver_iff d).2 hd, fun r => ?_⟩
  obtain ⟨f, a⟩ := d
  cases f with
  | append => exact h.own r
  | rebuild r' =>
    by_cases hr : r = r'
    · subst hr
      simpa [Board.deliver] using inOrder_snoc.2 ⟨h.own r, hd⟩
    · simpa [Board.deliver, Function.update_of_ne hr] using h.own r

end Ordered

end Board

end Lib
