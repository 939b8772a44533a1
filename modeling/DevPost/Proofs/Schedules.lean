import DevPost.Proofs.Delivery

/-! The order in which the main queues run. The model leaves open how the queues of the screens
and of the devices are interleaved, and which cells a layout pass hands out; what the screens
show in the end does not depend on either. -/

namespace DevPost

open Lib FirebaseServices

namespace Feed

variable {F : Foundation} {s s₁ s₂ : Feed} {evs evs' : List Event}

theorem outcome_unique (h : Path (step F) (fun _ e => e = .runMain) s evs s₁)
    (h' : Path (step F) (fun _ e => e = .runMain) s evs' s₂) (hs₁ : s₁.hub.queue = [])
    (hs₂ : s₂.hub.queue = []) : s₂ = s₁ := by
  refine (Path.ends_agree Eq (fun s => s.hub.queue = []) ?_ ?_ ?_ h h' rfl hs₁ hs₂).symm
  · rintro s _ e e' s' t' rfl rfl rfl hs ht
    exact Option.some.inj (hs.symm.trans ht)
  · rintro s _ rfl
    rfl
  · rintro s _ hquiet rfl
    simp [step, runMain, hquiet]

end Feed

namespace Threads

variable {s s₁ s₂ : Threads} {evs evs' : List Event}

theorem outcome_unique (h : Path step (fun _ e => e = .runMain) s evs s₁)
    (h' : Path step (fun _ e => e = .runMain) s evs' s₂) (hs₁ : s₁.hub.queue = [])
    (hs₂ : s₂.hub.queue = []) : s₂ = s₁ := by
  refine (Path.ends_agree Eq (fun s => s.hub.queue = []) ?_ ?_ ?_ h h' rfl hs₁ hs₂).symm
  · rintro s _ e e' s' t' rfl rfl rfl hs ht
    exact Option.some.inj (hs.symm.trans ht)
  · rintro s _ rfl
    rfl
  · rintro s _ hquiet rfl
    simp [step, hquiet]

end Threads

namespace MyCommentsController

variable {c : MyCommentsController} {l : Layout}

@[simp] theorem layout_rows : (c.layout l).rows = c.rows :=
  layout_rule (P := fun c' => c'.rows = c.rows) rfl fun _ _ _ h _ => h

theorem reloadData_rows : (c.reloadData l).rows = c.myPost.length := layout_rows

end MyCommentsController

namespace MyComments

variable {s s₁ s₂ : MyComments} {evs evs' : List Event} {l : Layout}

/-- The screen without its cells. -/
def listed (s : MyComments) : MyComments := { s with vc := { s.vc with cells := fun _ => {} } }

/-- What a closure does to the lists does not depend on the cells. -/
theorem listed_runClosure (post : Posts) (c : Closure) :
    (s.runClosure post l c).listed = (s.listed.runClosure post [] c).listed := by
  cases c with
  | append =>
    simp [listed, runClosure, MyCommentsController.fetchPostForCurrentUser,
      MyCommentsController.reloadData_rows]
  | rebuild r =>
    simp [listed, runClosure, MyCommentsController.refreshData,
      MyCommentsController.reloadData_rows]

theorem listed_runMain : (s.runMain l).map listed = (s.listed.runMain []).map listed := by
  unfold runMain
  rw [show s.listed.hub = s.hub from rfl]
  split
  · rfl
  · rfl
  · rename_i o post q hq
    simp only [Option.map_some]
    split_ifs
    · exact congrArg some (listed_runClosure post o.closure)
    · rfl
  · split <;> rfl

theorem outcome_listed (h : Path step (fun _ e => ∃ l, e = .runMain l) s evs s₁)
    (h' : Path step (fun _ e => ∃ l, e = .runMain l) s evs' s₂) (hs₁ : s₁.hub.queue = [])
    (hs₂ : s₂.hub.queue = []) : s₂.listed = s₁.listed := by
  refine (Path.ends_agree (fun s t => s.listed = t.listed) (fun s => s.hub.queue = []) ?_ ?_ ?_
    h h' rfl hs₁ hs₂).symm
  · rintro s t _ _ s' t' hst ⟨l, rfl⟩ ⟨l', rfl⟩ hs ht
    have hboth : (s.runMain l).map listed = (t.runMain l').map listed := by
      rw [listed_runMain, hst, ← listed_runMain]
    simp only [step] at hs ht
    rw [hs, ht] at hboth
    exact Option.some.inj hboth
  · intro s t hst
    have hhub : s.hub = t.hub := congrArg (·.hub) hst
    rw [hhub]
  · rintro s _ hquiet ⟨l, rfl⟩
    simp [step, runMain, hquiet]

end MyComments

namespace Device

variable {F : Foundation} {d d₁ d₂ : Device} {e : Event} {evs evs' : List Event}

def Event.isTask : Event → Bool
  | .feed .runMain | .mine (.runMain _) | .runThreads => true
  | _ => false

theorem Event.isTask_iff : e.isTask ↔ e.works := by
  cases e with
  | feed fe => cases fe <;> simp [isTask, works]
  | mine me => cases me <;> simp [isTask, works]
  | runThreads => simp [isTask, works]
  | didSelectItemAt | handleSubmit | handleSubmitComment | call => simp [isTask, works]

instance (e : Event) : Decidable e.works := decidable_of_iff _ Event.isTask_iff

instance (d : Device) : Decidable d.Quiet := instDecidableAnd

theorem feedEvent_of_works (h : e.works) : ∀ fe ∈ d.feedEvent e, fe = .runMain := by
  rintro fe hfe
  rcases h with rfl | ⟨l, rfl⟩ | rfl
  · exact (Option.some.inj hfe).symm
  · cases hfe
  · cases hfe

theorem mineEvent_of_works (h : e.works) : ∀ me ∈ d.mineEvent e, ∃ l, me = .runMain l := by
  rintro me hme
  rcases h with rfl | ⟨l, rfl⟩ | rfl
  · cases hme
  · exact ⟨l, (Option.some.inj hme).symm⟩
  · cases hme

theorem threadsEvent_of_works (h : e.works) : ∀ te ∈ d.threadsEvent e, te = .runMain := by
  rintro te hte
  rcases h with rfl | ⟨l, rfl⟩ | rfl
  · cases hte
  · cases hte
  · exact (Option.some.inj hte).symm

theorem threads_run {ok : Device → Event → Prop} (okt : Threads → Threads.Event → Prop)
    (h : Path (step F) ok d evs d₁)
    (hok : ∀ d e, ok d e → ∀ te ∈ d.threadsEvent e, okt d.threads te) :
    ∃ evs', Path Threads.step okt d.threads evs' d₁.threads := by
  obtain ⟨evs', hpath, -⟩ := h.project Device.threads threadsEvent
    (fun d e d' hs => (step_parts hs).2.2.2) fun d e _ ho _ => hok d e ho
  exact ⟨evs', hpath⟩

/-- The same screens, up to the cells. -/
def Agree (d d' : Device) : Prop :=
  d'.feed = d.feed ∧ d'.mine.listed = d.mine.listed ∧ d'.threads = d.threads

theorem outcome_agree (h : Path (step F) (fun _ e => e.works) d evs d₁)
    (h' : Path (step F) (fun _ e => e.works) d evs' d₂) (hd₁ : d₁.Quiet) (hd₂ : d₂.Quiet) :
    Agree d₁ d₂ := by
  refine ⟨?_, ?_, ?_⟩
  · obtain ⟨_, hf, -⟩ := feed_run (fun _ fe => fe = .runMain) h
      fun d e hw _ => feedEvent_of_works hw
    obtain ⟨_, hf', -⟩ := feed_run (fun _ fe => fe = .runMain) h'
      fun d e hw _ => feedEvent_of_works hw
    exact Feed.outcome_unique hf hf' hd₁.1 hd₂.1
  · obtain ⟨_, hm, -⟩ := mine_run (fun _ me => ∃ l, me = .runMain l) h
      fun d e hw => mineEvent_of_works hw
    obtain ⟨_, hm', -⟩ := mine_run (fun _ me => ∃ l, me = .runMain l) h'
      fun d e hw => mineEvent_of_works hw
    exact MyComments.outcome_listed hm hm' hd₁.2.1 hd₂.2.1
  · obtain ⟨_, ht⟩ := threads_run (fun _ te => te = .runMain) h
      fun d e hw => threadsEvent_of_works hw
    obtain ⟨_, ht'⟩ := threads_run (fun _ te => te = .runMain) h'
      fun d e hw => threadsEvent_of_works hw
    exact Threads.outcome_unique ht ht' hd₁.2.2 hd₂.2.2

end Device

namespace Network

open Device

variable {F : Foundation} {ι : Type*} [DecidableEq ι] {s s₁ s₂ : ι → Device}
  {evs tasks tasks' : List (ι × Device.Event)}

theorem works_heard {a : ι × Device.Event} (h : a.2.works) (i : ι) :
    ∀ e ∈ (Network F).heard i s a, e.works := by
  intro e he
  by_cases hi : i = a.1
  · rw [Peer.heard, if_pos hi] at he
    exact Option.some.inj he ▸ h
  · rw [Peer.heard, if_neg hi] at he
    simp [Network, call_of_works h] at he

variable [Fintype ι]

/-- Two schedules of the main queues: when nothing is left to run in either, every screen of
every device is the same in both. -/
theorem outcomes_agree (h₁ : Path (Network F).all (fun _ a => a.2.works) s tasks s₁)
    (h₂ : Path (Network F).all (fun _ a => a.2.works) s tasks' s₂) (hs₁ : ∀ i, (s₁ i).Quiet)
    (hs₂ : ∀ i, (s₂ i).Quiet) (i : ι) : Agree (s₁ i) (s₂ i) := by
  obtain ⟨_, hpath₁, -⟩ := Peer.run_of (fun _ e => e.works) h₁ i
    fun _ _ _ hw _ => works_heard hw i
  obtain ⟨_, hpath₂, -⟩ := Peer.run_of (fun _ e => e.works) h₂ i
    fun _ _ _ hw _ => works_heard hw i
  exact outcome_agree hpath₁ hpath₂ (hs₁ i) (hs₂ i)

/-- In every reachable state there is one outcome. Whatever the main queues have run of what is
on its way, the rest can be run; and when nothing is left, every screen is as in the outcome. -/
theorem one_outcome (h : Path (Network F).all anyStep launch evs s) :
    ∃ outcome : ι → Device, (∀ i, (outcome i).Quiet) ∧
      ∀ tasks s', Path (Network F).all (fun _ a => a.2.works) s tasks s' →
        (∃ rest s'', Path (Network F).all (fun _ a => a.2.works) s' rest s'' ∧
          ∀ i, (s'' i).Quiet) ∧
        ((∀ i, (s' i).Quiet) → ∀ i, Agree (outcome i) (s' i)) := by
  have hs : ∀ i, Threads.Sound (s i).threads := sound_run h
  obtain ⟨tasks₀, outcome, hpath₀, hquiet₀⟩ := runs_quiet (F := F) hs
  refine ⟨outcome, hquiet₀, fun tasks s' hpath => ⟨?_, fun hquiet i => ?_⟩⟩
  · exact runs_quiet (queue_drains.run hpath hs).1
  · exact outcomes_agree hpath₀ hpath hquiet₀ hquiet i

/-- A post and a comment are on their way; they reach the screens one by one, or the devices in
turn, with other cells for the rows. -/
theorem one_outcome_run :
    let evs : List (Fin 2 × Device.Event) :=
      [(0, .mine (.signIn "a")), (0, .mine .viewDidLoad), (0, .feed .viewDidLoad),
        (1, .feed .viewDidLoad),
        (0, .handleSubmit "Swift" "text" "Jun 1, 2020 at 9:00 AM" (some "ann") "p1"),
        (0, .feed .runMain), (0, .feed .runMain), (0, .didSelectItemAt 0), (0, .feed .refreshData),
        (1, .call (.postComment "bob" "b" "nice" "p1" "c1" "Jun 1, 2020 at 9:30 AM"))]
    let tasks : List (Fin 2 × Device.Event) :=
      [(0, .mine (.runMain [])), (0, .mine (.runMain [])), (0, .mine (.runMain [(0, 0)])),
        (0, .feed .runMain), (0, .feed .runMain), (0, .feed .runMain), (0, .runThreads),
        (1, .feed .runMain), (1, .feed .runMain)]
    let tasks' : List (Fin 2 × Device.Event) :=
      [(1, .feed .runMain), (0, .runThreads), (0, .feed .runMain), (0, .mine (.runMain [])),
        (0, .feed .runMain), (0, .mine (.runMain [])), (1, .feed .runMain), (0, .feed .runMain),
        (0, .mine (.runMain [(0, 3)]))]
    ∃ s s₁ s₂ outcome : Fin 2 → Device, Path (Network .ascii).all anyStep launch evs s ∧
      Path (Network .ascii).all (fun _ a => a.2.works) s tasks s₁ ∧
      Path (Network .ascii).all (fun _ a => a.2.works) s tasks' s₂ ∧
      (s₁ 0).mine.vc.myPost.map (·.title) = ["Swift"] ∧
      ∀ i, Agree (outcome i) (s₁ i) ∧ Agree (outcome i) (s₂ i) := by
  intro evs tasks tasks'
  obtain ⟨s, s₁, s₂, h, h₁, h₂, hshown, hs₁, hs₂⟩ : ∃ s s₁ s₂,
      Path (Network .ascii).all anyStep launch evs s ∧
      Path (Network .ascii).all (fun _ a => a.2.works) s tasks s₁ ∧
      Path (Network .ascii).all (fun _ a => a.2.works) s tasks' s₂ ∧
      (s₁ 0).mine.vc.myPost.map (·.title) = ["Swift"] ∧
      (∀ i, (s₁ i).Quiet) ∧ ∀ i, (s₂ i).Quiet :=
    ⟨_, _, _, .of_exec_get (by decide), .of_exec_get (by decide), .of_exec_get (by decide),
      by decide, by decide, by decide⟩
  obtain ⟨outcome, -, hall⟩ := one_outcome h
  exact ⟨s, s₁, s₂, outcome, h, h₁, h₂, hshown,
    fun i => ⟨(hall tasks s₁ h₁).2 hs₁ i, (hall tasks' s₂ h₂).2 hs₂ i⟩⟩

end Network

end DevPost
