import DevPost.Sanity.Listeners

/-! What a step of My Comments sends when no post is edited. Every post then carries its
key, so an upload is an addition; a step sends a new post to the listeners of its author,
or the posts of one author to a new listener, or nothing. -/

namespace DevPost

open Lib FirebaseServices

namespace MyComments

variable {s s' : MyComments} {e : Event}

/-- Steps that edit no post. -/
def Unedited : Event → Prop
  | .remoteEdit .. => False
  | .editUserPost .. => False
  | _ => True

/-- Steps that delete no post. -/
def Undeleted : Event → Prop
  | .remoteDelete _ => False
  | .deletePost _ => False
  | _ => True

instance (e : Event) : Decidable (Unedited e) := by
  unfold Unedited
  split <;> infer_instance

instance (e : Event) : Decidable (Undeleted e) := by
  unfold Undeleted
  split <;> infer_instance

/-- What a step that edits nothing sends: nothing, a new post to every listener of its
author, or the posts of its account to a new listener. -/
inductive Sends (s : MyComments) (e : Event) (s' : MyComments) : Prop
  | quiet (put : s.put e = none) (sends : s.sends e = []) (ids : s'.ids = s.ids)
      (listeners : s'.hub.listeners = s.hub.listeners)
  | upload (post : Posts)
      (event : e = .uploadPost post.title post.detailPost post.date post.username post.userId
        post.postId)
      (fresh : post.postId ∉ s.ids) (ids : s'.ids = post.postId :: s.ids)
      (sends : s.sends e =
        ((s.hub.listeners.filter (·.user = post.userId)).map (·.closure)).map (·, post))
      (node : ∃ r, s'.hub.node = s.hub.node.set post.postId r)
      (stored : s'.stored.Perm (s.stored ++ [post]))
      (listeners : s'.hub.listeners = s.hub.listeners)
  | register (o : Observer) (q : List (Task Observer Record Posts AuthCallback))
      (next : s.hub.queue = .other ⟨o.closure, some o.user⟩ :: q)
      (sends : s.sends e = (s.storedBy o.user).map (o.closure, ·))
      (node : s'.hub.node = s.hub.node) (ids : s'.ids = s.ids) (called : s.called e = [])
      (listeners : s'.hub.listeners = s.hub.listeners ++ [o])

theorem sends_upload {title detailPost date username userId postId : String}
    (hnone : s.hub.node.lookup postId = none) :
    s.sends (.uploadPost title detailPost date username userId postId) =
      ((s.hub.listeners.filter (·.user = userId)).map (·.closure)).map
        (·, (⟨title, detailPost, date, username, userId, postId⟩ : Posts)) := by
  simp only [sends, put, hnone, if_true, init_uploadPost, accepted_raise, List.map_map]
  rfl

theorem sends_of_fresh (h : step s e = some s') (hok : Unedited e)
    (hfresh : ∀ i ∉ s.ids, s.hub.node.lookup i = none) : Sends s e s' := by
  obtain ⟨hf, hen⟩ := step_frame h
  have hquiet : s.put e = none → s.heard e = [] → generated e = [] → Sends s e s' :=
    fun hp hh hg => .quiet hp (sends_of_quiet hp hh) (by rw [hf.ids, hg]; rfl)
      (by simp [hf.listeners, joins, hh, observers])
  cases e with
  | uploadPost title detailPost date username userId postId =>
    have hid : postId ∉ s.ids := hen
    refine .upload ⟨title, detailPost, date, username, userId, postId⟩ rfl hid hf.ids
      (sends_upload (hfresh _ hid)) ⟨_, hf.node⟩ ?_ (by simp [hf.listeners, joins, heard, observers])
    rw [stored, hf.node]
    exact upload_perm (hfresh _ hid) ..
  | remoteEdit | editUserPost => exact hok.elim
  | viewDidLoad | signIn | signOut | remoteDelete | refreshData | deleteIconTapped
  | editIconTapped | deletePost | cancel | layout => exact hquiet rfl rfl rfl
  | runMain l =>
    by_cases hreg : ∃ c v q, s.hub.queue = .other ⟨c, some v⟩ :: q
    · obtain ⟨c, v, q, hq⟩ := hreg
      have hjoins : s.joins (.runMain l) = [⟨c, v⟩] := by simp [joins, heard, hq, observers]
      exact .register ⟨c, v⟩ q hq (by simp [sends, put, hjoins]) hf.node hf.ids rfl
        (by rw [hf.listeners, hjoins])
    · have hobservers : observers (s.heard (.runMain l)) = [] := by
        simp only [heard]
        split
        · rename_i t q hq
          obtain ⟨c, v⟩ := t
          cases v with
          | none => rfl
          | some v => exact absurd ⟨c, v, q, hq⟩ hreg
        · rfl
      exact .quiet rfl (by simp [sends, put, joins, hobservers]) hf.ids
        (by simp [hf.listeners, joins, hobservers])

theorem step_sends (h : step s e = some s') (hok : Unedited e) (hc : Carries s.ids s.hub.node) :
    Sends s e s' := sends_of_fresh h hok fun _ hi => hc.lookup_eq_none hi

theorem carries_step (h : step s e = some s') (hok : Unedited e)
    (hc : Carries s.ids s.hub.node) : Carries s'.ids s'.hub.node := by
  obtain ⟨hf, -⟩ := step_frame h
  rw [hf.node, hf.ids]
  cases e with
  | uploadPost title detailPost date username userId postId =>
    exact hc.upload title detailPost date username userId postId
  | remoteEdit | editUserPost => exact hok.elim
  | remoteDelete postId => exact hc.erase postId
  | deletePost l =>
    simp only [written, put]
    split
    · rename_i hp
      cases hp
    · exact hc.erase _
    · exact hc
  | viewDidLoad | signIn | signOut | refreshData | deleteIconTapped | editIconTapped | cancel
  | layout | runMain => exact hc

end MyComments

end DevPost
