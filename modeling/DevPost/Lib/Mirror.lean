import DevPost.Lib.Board

/-! What a board has of the node that its feeders hear of. After a snapshot the last
feeder registered has everything, and what is raised later reaches it last, so the visible
list mirrors the node; and an item that every rebuilder has stays visible, whoever rebuilds
the list. -/

namespace Lib

namespace Board

variable {α : Type*} {order : List α → List α} {b : Board α} {ls : List Feeder} {xs ys : List α}

/-- The last feeder registered holds `xs`, and so does the visible list, unless nothing was
delivered to it. -/
structure Mirrors (ls : List Feeder) (xs : List α) (b : Board α) : Prop where
  last : ls = [.append] ∧ b.visible.Perm xs ∨
    ∃ pre r, ls = pre ++ [.rebuild r] ∧ (b.own r).Perm xs
  shown : xs ≠ [] → b.visible.Perm xs

theorem Mirrors.perm (h : Mirrors ls xs b) (hp : xs.Perm ys) : Mirrors ls ys b where
  last := h.last.imp (fun ⟨hls, hv⟩ => ⟨hls, hv.trans hp⟩)
    fun ⟨pre, r, hls, ho⟩ => ⟨pre, r, hls, ho.trans hp⟩
  shown hne := (h.shown fun hnil => hne (List.perm_nil.1 (hnil ▸ hp).symm)).trans hp

/-- A rebuilder that has received nothing is registered, and is told everything. -/
theorem mirrors_snapshot {r : ℕ} (hown : b.own r = []) :
    Mirrors (ls ++ [.rebuild r]) xs (b.settle order (xs.map (.rebuild r, ·))) where
  last := by
    refine .inr ⟨ls, r, rfl, ?_⟩
    rw [own_settle, forRebuild_snapshot, if_pos rfl, hown]
    exact .refl _
  shown hne := by
    rw [visible_settle_snapshot order b xs hown, if_neg hne]

section Perm

variable (horder : ∀ l, (order l).Perm l)
include horder

theorem mirrors_first (hv : b.visible = []) :
    Mirrors [.append] xs (b.settle order (xs.map (.append, ·))) := by
  have h : (b.settle order (xs.map (.append, ·))).visible.Perm xs := by
    simpa [hv] using visible_settle_appends horder b xs
  exact ⟨.inl ⟨rfl, h⟩, fun _ => h⟩

/-- One addition reaches the last feeder last. -/
theorem Mirrors.raise (h : Mirrors ls xs b) (hls : ls.Nodup) (a : α) :
    Mirrors ls (xs ++ [a]) (b.settle order (ls.map (·, a))) := by
  rcases h.last with ⟨rfl, hv⟩ | ⟨pre, r, rfl, ho⟩
  · have hnew : (b.settle order ([.append].map (·, a))).visible.Perm (xs ++ [a]) :=
      (visible_settle_appends horder b [a]).trans (hv.append_right _)
    exact ⟨.inl ⟨rfl, hnew⟩, fun _ => hnew⟩
  · have hr : Feeder.rebuild r ∈ pre ++ [.rebuild r] := by simp
    have hnew : ((b.settle order ((pre ++ [Feeder.rebuild r]).map (·, a))).own r).Perm
        (xs ++ [a]) := by
      rw [own_settle, forRebuild_raise, List.count_eq_one_of_mem hls hr]
      exact ho.append_right _
    refine ⟨.inr ⟨pre, r, rfl, hnew⟩, fun _ => ?_⟩
    have hv := visible_settle_snoc order b (pre.map (·, a)) r a
    rw [List.map_append] at hnew ⊢
    exact hv ▸ hnew

end Perm

/-- The item is visible, and every rebuilder has it. -/
structure Everywhere (ls : List Feeder) (a : α) (b : Board α) : Prop where
  visible : a ∈ b.visible
  own : ∀ r, .rebuild r ∈ ls → a ∈ b.own r

section Everywhere

variable {a : α}

theorem Everywhere.snapshot (h : Everywhere ls a b) {r : ℕ} (hown : b.own r = []) (ha : a ∈ xs) :
    Everywhere (ls ++ [.rebuild r]) a (b.settle order (xs.map (.rebuild r, ·))) where
  visible := by
    rw [visible_settle_snapshot order b xs hown, if_neg (List.ne_nil_of_mem ha)]
    exact ha
  own r' hr' := by
    rw [own_settle, forRebuild_snapshot]
    split_ifs with hr
    · exact List.mem_append_right _ ha
    · refine List.mem_append_left _ (h.own r' ?_)
      simpa [Ne.symm hr] using hr'

variable (horder : ∀ l, (order l).Perm l)
include horder

theorem everywhere_first (ha : a ∈ xs) :
    Everywhere [.append] a (b.settle order (xs.map (.append, ·))) where
  visible := (visible_settle_appends horder b xs).mem_iff.2 (List.mem_append_right _ ha)
  own r hr := by simp at hr

theorem Everywhere.settle (h : Everywhere ls a b) {ds : List (Feeder × α)}
    (hds : ∀ d ∈ ds, d.1 ∈ ls) : Everywhere ls a (b.settle order ds) := by
  refine ⟨?_, fun r hr => ?_⟩
  · induction ds using List.reverseRecOn with
    | nil => exact h.visible
    | append_singleton ds d ih =>
      obtain ⟨f, x⟩ := d
      have hvis := ih fun d hd => hds d (List.mem_append_left _ hd)
      rw [settle_append]
      cases f with
      | append =>
        exact (horder ((b.settle order ds).visible ++ [x])).mem_iff.2 (List.mem_append_left _ hvis)
      | rebuild r =>
        have hr : .rebuild r ∈ ls := hds (.rebuild r, x) (by simp)
        have ha : a ∈ (b.settle order ds).own r := by
          rw [own_settle]
          exact List.mem_append_left _ (h.own r hr)
        exact List.mem_append_left _ ha
  · rw [own_settle]
    exact List.mem_append_left _ (h.own r hr)

/-- An addition comes to all feeders, and is visible after the last of them. -/
theorem everywhere_raise (hls : ls ≠ []) :
    Everywhere ls a (b.settle order (ls.map (·, a))) := by
  have hown : ∀ r, .rebuild r ∈ ls → a ∈ (b.settle order (ls.map (·, a))).own r := by
    intro r hr
    rw [own_settle, forRebuild_raise]
    exact List.mem_append_right _
      (List.mem_replicate.2 ⟨(List.count_pos_iff.2 hr).ne', rfl⟩)
  refine ⟨?_, hown⟩
  obtain ⟨pre, l, rfl⟩ := (List.eq_nil_or_concat' ls).resolve_left hls
  cases l with
  | append =>
    rw [List.map_append, settle_append]
    exact (horder _).mem_iff.2 (List.mem_append_right _ (by simp))
  | rebuild r =>
    have hmem := hown r (by simp)
    rw [List.map_append] at hmem ⊢
    exact visible_settle_snoc order b (pre.map (·, a)) r a ▸ hmem

end Everywhere

end Board

end Lib
