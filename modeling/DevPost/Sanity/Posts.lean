import DevPost.Lib.Hub
import DevPost.Lib.Sorting
import DevPost.Spec.Records

/-! The posts node under the writes of the app. No write stores an empty record, so
the handler of a child-added event drops nothing, and as long as edits reach posts
that are there, a record's `postId` is the key it is stored under. -/

namespace DevPost

open Lib FirebaseServices

abbrev byDate : List Posts → List Posts := sort orderedDescending

/-- The key by which the posts are sorted: later dates come first. -/
abbrev latest (p : Posts) : OrderDual String := OrderDual.toDual p.date

theorem orderedDescending_iff (a b : Posts) :
    orderedDescending a b = true ↔ latest a < latest b := by
  simp [orderedDescending, compare_gt_iff_gt]

theorem sort_orderedDescending (l : List Posts) : sort orderedDescending l = sortOn latest l :=
  stableSort_eq_sortOn orderedDescending_iff l

/-- A stored record is never empty. -/
def Kept (node : Table String Record) : Prop := ∀ e ∈ node.entries, Record.exists e.2

theorem kept_set {node : Table String Record} (h : Kept node) (k : String) {r : Record}
    (hr : Record.exists r) : Kept (node.set k r) := by
  intro e he
  rcases Table.mem_set.1 he with rfl | ⟨he, -⟩
  · exact hr
  · exact h e he

theorem kept_erase {node : Table String Record} (h : Kept node) (k : String) :
    Kept (node.erase k) := fun e he => h e (Table.mem_erase.1 he).1

theorem exists_uploadPost (title detailPost date username userId postId : String) :
    Record.exists
      (Table.ofList (uploadPostValues title detailPost date username userId postId)) :=
  exists_merge _ (by simp [uploadPostValues, strings])

theorem exists_editUserPost (node : Table String Record) (postId title detailPost date : String) :
    Record.exists
      (updateChildValues node postId (editUserPostValues title detailPost date)) :=
  exists_merge _ (by simp [editUserPostValues, strings])

theorem observeUserPost_of_exists {r : Record} (h : r.exists) :
    observeUserPost r = some (Posts.init r) := if_pos h

/-- The handler drops no child of a node without empty records. -/
theorem deliveries_of_kept {L : Type*} {node : Table String Record} (h : Kept node) (l : L) :
    (node.entries.map (·.2)).filterMap (fun r => (observeUserPost r).map (l, ·)) =
      (node.entries.map fun e => Posts.init e.2).map (l, ·) := by
  rw [List.filterMap_map, List.map_map, ← List.filterMap_eq_map]
  refine List.filterMap_congr fun e he => ?_
  simp [observeUserPost_of_exists (h e he)]

theorem upload_perm {node : Table String Record} {postId : String}
    (h : node.lookup postId = none) (title detailPost date username userId : String) :
    ((node.set postId (Table.ofList (uploadPostValues title detailPost date username userId
      postId))).entries.map fun e => Posts.init e.2).Perm
      (node.entries.map (fun e => Posts.init e.2) ++
        [⟨title, detailPost, date, username, userId, postId⟩]) := by
  rw [← init_uploadPost title detailPost date username userId postId]
  apply ((Table.set_perm_of_lookup_eq_none h _).map _).trans
  exact (List.perm_append_singleton _ _).symm

/-- Every stored post carries its key, which has been generated. -/
def Carries (ids : List String) (node : Table String Record) : Prop :=
  ∀ e ∈ node.entries, (Posts.init e.2).postId = e.1 ∧ e.1 ∈ ids

section Carries

variable {ids : List String} {node : Table String Record}

theorem Carries.upload (h : Carries ids node)
    (title detailPost date username userId postId : String) :
    Carries (postId :: ids) (node.set postId
      (Table.ofList (uploadPostValues title detailPost date username userId postId))) := by
  intro e he
  rcases Table.mem_set.1 he with rfl | ⟨he, -⟩
  · simp [init_uploadPost]
  · exact ⟨(h e he).1, List.mem_cons_of_mem _ (h e he).2⟩

theorem Carries.edit (h : Carries ids node) {postId : String}
    (hex : node.lookup postId ≠ none) (title detailPost date : String) :
    Carries ids (node.set postId
      (updateChildValues node postId (editUserPostValues title detailPost date))) := by
  intro e he
  rcases Table.mem_set.1 he with rfl | ⟨he, -⟩
  · obtain ⟨dict, hdict⟩ := Option.ne_none_iff_exists'.1 hex
    have := h _ (Table.lookup_eq_some.1 hdict)
    simpa [updateChildValues, hdict, init_editUserPost] using this
  · exact h e he

theorem Carries.erase (h : Carries ids node) (postId : String) : Carries ids (node.erase postId) :=
  fun e he => h e (Table.mem_erase.1 he).1

theorem Carries.lookup_eq_none (h : Carries ids node) {postId : String} (hid : postId ∉ ids) :
    node.lookup postId = none :=
  Table.lookup_eq_none_of_keys (fun e he => (h e he).2) hid

theorem Carries.nodup (h : Carries ids node) :
    ((node.entries.map fun e => Posts.init e.2).map (·.postId)).Nodup := by
  have hkeys : (node.entries.map fun e => Posts.init e.2).map (·.postId) =
      node.entries.map (·.1) := by
    rw [List.map_map]
    exact List.map_congr_left fun e he => (h e he).1
  rw [hkeys]
  exact node.keys_nodup

theorem Carries.mem (h : Carries ids node) :
    ∀ p ∈ node.entries.map fun e => Posts.init e.2, p.postId ∈ ids := by
  intro p hp
  obtain ⟨e, he, rfl⟩ := List.mem_map.1 hp
  rw [(h e he).1]
  exact (h e he).2

end Carries

end DevPost
