import DevPost.Sanity.Sends

/-! My Comments for one account: the first sign-in that the screen is told of is the
only one. Then every auth listener registers one post listener, all with the uid of
that account and in the order of the auth listeners, so the launch listener is the
first, and what is on its way is the plain board of the main feed. -/

namespace DevPost

open Lib FirebaseServices

namespace MyComments

variable {s s' : MyComments} {e : Event} {u : Uid}

/-- No sign-in has reached the screen, and none is on its way to it. -/
def Untold (s : MyComments) : Prop := s.listening = []

instance (s : MyComments) : Decidable s.Untold := inferInstanceAs (Decidable (_ = _))

/-- Signing in is for the first account only, or again for the one that is signed in. -/
def OneAccount (s : MyComments) : Event → Prop
  | .signIn uid => s.session = some uid ∨ s.Untold
  | _ => True

instance (s : MyComments) : (e : Event) → Decidable (OneAccount s e)
  | .signIn _ => instDecidableOr
  | .viewDidLoad | .signOut | .uploadPost .. | .remoteEdit .. | .remoteDelete _ | .refreshData
  | .deleteIconTapped _ | .editIconTapped _ | .deletePost _ | .editUserPost .. | .cancel
  | .layout _ | .runMain _ => instDecidableTrue

/-- Every listener is for `u`, and they are the auth listeners in their order, all of them
while `u` is signed in. -/
structure Single (u : Uid) (s : MyComments) : Prop where
  user : ∀ o ∈ s.listening, o.user = u
  session : ∀ v ∈ s.session, v = u
  order : s.listening.map (·.closure) <+: s.authListeners
  full : s.session ≠ none → s.listening.map (·.closure) = s.authListeners

theorem single_init : Single u {} where
  user := by simp [listening, Hub.idle, observers]
  session := by simp
  order := List.prefix_rfl
  full h := absurd rfl h

theorem single_asked (c : Closure) (hs : Single u s)
    (hlistening : s'.listening = s.listening ++ observers [⟨c, s.session⟩])
    (hauth : s'.authListeners = s.authListeners ++ [c]) (hsession : s'.session = s.session) :
    Single u s' := by
  cases hv : s.session with
  | none =>
    rw [hv, show observers [⟨c, none⟩] = [] from rfl, List.append_nil] at hlistening
    refine ⟨hlistening ▸ hs.user, by simp [hsession, hv], ?_, by simp [hsession, hv]⟩
    rw [hlistening, hauth]
    exact hs.order.trans (List.prefix_append _ _)
  | some v =>
    obtain rfl : v = u := hs.session v hv
    rw [hv, show observers [⟨c, some v⟩] = [⟨c, v⟩] from rfl] at hlistening
    have hfull : s'.listening.map (·.closure) = s'.authListeners := by
      rw [hlistening, hauth, List.map_append, hs.full (by simp [hv])]
      rfl
    refine ⟨fun o ho => ?_, by simp [hsession, hv], hfull ▸ List.prefix_rfl, fun _ => hfull⟩
    rw [hlistening] at ho
    rcases List.mem_append.1 ho with ho | ho
    · exact hs.user o ho
    · rw [List.mem_singleton.1 ho]

theorem single_same (hs : Single u s) (hlistening : s'.listening = s.listening)
    (hauth : s'.authListeners = s.authListeners) (hsession : s'.session = s.session) :
    Single u s' where
  user := hlistening ▸ hs.user
  session := hsession ▸ hs.session
  order := by rw [hlistening, hauth]; exact hs.order
  full := by rw [hsession, hlistening, hauth]; exact hs.full

/-- The account can only change before the first post listener. -/
theorem single_step (h : step s e = some s') (hok : OneAccount s e) (hs : Single u s) :
    ∃ v, Single v s' := by
  have hf := (step_frame h).1
  have hl := listening_step h
  cases e with
  | viewDidLoad | refreshData => exact ⟨u, single_asked _ hs hl hf.authListeners hf.session⟩
  | signIn v =>
    have hauth : s'.authListeners = s.authListeners := by
      rw [hf.authListeners]
      exact List.append_nil _
    by_cases hsame : s.session = some v
    · refine ⟨u, single_same hs ?_ hauth (hf.session.trans hsame.symm)⟩
      simp [hl, called, hsame, observers]
    have huntold : s.listening = [] := hok.resolve_left hsame
    have hlistening : s'.listening = s.authListeners.map (⟨·, v⟩) := by
      rw [hl, huntold, List.nil_append, called, if_neg hsame, observers_signIn]
    have hfull : s'.listening.map (·.closure) = s'.authListeners := by
      rw [hlistening, hauth, List.map_map]
      exact List.map_id _
    refine ⟨v, fun o ho => ?_, by simp [hf.session, user], hfull ▸ List.prefix_rfl,
      fun _ => hfull⟩
    rw [hlistening] at ho
    obtain ⟨c, -, rfl⟩ := List.mem_map.1 ho
    rfl
  | signOut =>
    have hnil : observers (s.called .signOut) = [] := by
      simp only [called]
      split_ifs
      · rfl
      · exact observers_signOut _
    rw [hnil, List.append_nil] at hl
    have hauth : s'.authListeners = s.authListeners := by
      rw [hf.authListeners]
      exact List.append_nil _
    exact ⟨u, by rw [hl]; exact hs.user, by simp [hf.session, user],
      by rw [hl, hauth]; exact hs.order, by simp [hf.session, user]⟩
  | uploadPost | remoteEdit | remoteDelete | deleteIconTapped | editIconTapped | deletePost
  | editUserPost | cancel | layout | runMain =>
    rw [show observers (s.called _) = [] from rfl, List.append_nil] at hl
    refine ⟨u, single_same hs hl ?_ hf.session⟩
    rw [hf.authListeners]
    exact List.append_nil _

section Shape

variable (hs : Single u s) (hw : Wired s)
include hs

theorem Single.closures_prefix : s.closures <+: s.authListeners := by
  refine List.IsPrefix.trans ?_ hs.order
  rw [listening, List.map_append]
  exact List.prefix_append _ _

theorem Single.listener_user {o : Observer} (ho : o ∈ s.hub.listeners) : o.user = u :=
  hs.user o (List.mem_append_left _ ho)

/-- With one account, every listener hears of a post or none does. -/
theorem Single.heard (post : Posts) :
    ((s.hub.listeners.filter (·.user = post.userId)).map (·.closure)).map (·, post) =
      if u = post.userId then s.closures.map (·, post) else [] := by
  split_ifs with hu
  · rw [List.filter_eq_self.2 fun o ho => by simp [hs.listener_user ho, hu], closures]
  · rw [List.filter_eq_nil_iff.2 fun o ho => by simp [hs.listener_user ho, hu]]
    rfl

include hw

theorem Single.closures_nodup :
    s.closures.Nodup ∧ .fetchPostForCurrentUser ∉ s.closures.tail := by
  obtain ⟨hnodup, hnot⟩ := hw.auth_nodup
  have hsub := hs.closures_prefix.sublist
  exact ⟨hnodup.sublist hsub, fun h => hnot (hsub.tail.subset h)⟩

/-- The next callback that registers is for the auth listener after those registered. -/
theorem Single.next {c : Closure} {v : Uid} {q : List (Task Observer Record Posts AuthCallback)}
    (hq : s.hub.queue = .other ⟨c, some v⟩ :: q) :
    v = u ∧ c ∉ s.closures ∧ (c = .fetchPostForCurrentUser ↔ s.closures = []) := by
  have hmem : (⟨c, v⟩ : Observer) ∈ s.listening := by simp [listening, hq, observers]
  have hpre : s.closures ++ [c] <+: s.authListeners := by
    refine List.IsPrefix.trans ?_ hs.order
    have hlist : s.listening.map (·.closure) =
        s.closures ++ [c] ++ (observers (others q)).map (·.closure) := by
      simp [listening, hq, observers, closures]
    rw [hlist]
    exact List.prefix_append _ _
  obtain ⟨hnodup, hnot⟩ := hw.auth_nodup
  have hnext := hnodup.sublist hpre.sublist
  refine ⟨hs.user _ hmem, ?_, ?_, ?_⟩
  · exact fun hc => (List.nodup_append.1 hnext).2.2 c hc c (by simp) rfl
  · rintro rfl
    by_contra hne
    refine hnot (hpre.sublist.tail.subset ?_)
    rw [List.tail_append_of_ne_nil hne]
    simp
  · intro hnil
    have hhead : c = s.authListeners.head (by rintro h; simp [h] at hpre) := by
      obtain ⟨t, ht⟩ := hpre
      simp [← ht, hnil]
    rw [hhead]
    have hauth := hw.auth
    cases hl : s.loaded with
    | false => simp [hauth, hl, hw.early hl] at hpre
    | true => simp [hauth, hl]

end Shape

end MyComments

end DevPost
