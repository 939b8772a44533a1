import DevPost.Lib.Path
import DevPost.Sanity.MainFeed

/-! What a search shows. The list of the posts found is computed when the text changes, and
the closures of the deliveries reload the collection view without computing it again. So what
ran since the text last changed decides whether it is still right, and is recorded. -/

namespace DevPost

open Lib FirebaseServices MainController

namespace SearchedFeed

variable {F : Foundation} {s s' : SearchedFeed} {e : Feed.Event}

/-- The title contains the text in the search bar, upper and lower case aside. -/
def hits (F : Foundation) (s : SearchedFeed) (p : Posts) : Bool :=
  F.hasRange (F.lowercased p.title) (F.lowercased s.searchText)

theorem hits_congr (h : s'.searchText = s.searchText) : s'.hits F = s.hits F := by
  unfold hits
  rw [h]

/-- The collection view shows the posts with the text in the search bar, in the order of the
list, or the list itself when there is no text. -/
structure ShowsFound (F : Foundation) (s : SearchedFeed) : Prop where
  rows : s.feed.main.rows = s.feed.main.shown.length
  result : s.feed.main.showResult = (s.searchText ≠ "")
  shown : s.feed.main.shown =
    if s.searchText = "" then s.feed.main.posts else s.feed.main.posts.filter (s.hits F)

/-- What is shown is right without a text, or when the posts found are those that would be found
now. -/
theorem showsFound_iff (hrows : s.feed.main.rows = s.feed.main.shown.length)
    (hresult : s.feed.main.showResult = (s.searchText ≠ "")) :
    s.ShowsFound F ↔ s.searchText = "" ∨
      s.feed.main.posts.filter (s.hits F) = s.feed.main.filteredPosts := by
  by_cases ht : s.searchText = ""
  · have hplain : s.feed.main.showResult = false := by simpa [ht] using hresult
    refine iff_of_true ⟨hrows, hresult, ?_⟩ (.inl ht)
    rw [if_pos ht, shown, hplain]
    rfl
  · have hshown : s.feed.main.shown = s.feed.main.filteredPosts := by
      have hsearch : s.feed.main.showResult = true := by simpa [ht] using hresult
      exact if_pos hsearch
    rw [or_iff_right ht]
    constructor
    · intro hs
      have hright := hs.shown
      rw [hshown, if_neg ht] at hright
      exact hright.symm
    · intro hposts
      refine ⟨hrows, hresult, ?_⟩
      rw [hshown, if_neg ht, hposts]

theorem step_cases (h : step F s e = some s') :
    Feed.step F s.feed e = some s'.feed ∧
      ((∃ searchText, e = .textDidChange searchText ∧ s'.searchText = searchText) ∨
        (∀ searchText, e ≠ .textDidChange searchText) ∧ s'.searchText = s.searchText) := by
  obtain ⟨feed, hstep, rfl⟩ := Option.map_eq_some_iff.1 h
  refine ⟨hstep, ?_⟩
  cases e with
  | textDidChange searchText => exact .inl ⟨searchText, rfl, rfl⟩
  | viewDidLoad | uploadPost | editUserPost | deletePost | refreshData | runMain =>
    exact .inr ⟨by simp, rfl⟩

/-- No text is entered, or the step changes nothing about what is found: a new post does not
match and the posts found are in order, or a refresh has been told the same matching posts
as are on screen. -/
def Unchanging (F : Foundation) (s : SearchedFeed) (e : Feed.Event) : Prop :=
  s.searchText = "" ∨
    match s.feed.delivers e with
    | none => True
    | some (.observeUser, post) =>
      s.hits F post = false ∧ InOrder latest (s.feed.main.posts.filter (s.hits F))
    | some (.refreshData r, post) =>
      (s.feed.newPosts r ++ [post]).filter (s.hits F) = s.feed.main.posts.filter (s.hits F)

theorem showsFound_iff_of_posts (hs : s.ShowsFound F) (htext : s'.searchText = s.searchText)
    {posts : List Posts} (hmain : s'.feed.main = { s.feed.main with posts }.reloadData) :
    s'.ShowsFound F ↔ s.searchText = "" ∨
      posts.filter (s.hits F) = s.feed.main.posts.filter (s.hits F) := by
  have hrows : s'.feed.main.rows = s'.feed.main.shown.length := by
    rw [hmain]
    exact rows_reloadData _
  have hresult : s'.feed.main.showResult = (s'.searchText ≠ "") := by
    rw [hmain, htext]
    exact hs.result
  have hlists : s'.feed.main.posts = posts ∧
      s'.feed.main.filteredPosts = s.feed.main.filteredPosts := by
    rw [hmain]
    exact ⟨rfl, rfl⟩
  rw [showsFound_iff hrows hresult, htext, hits_congr htext, hlists.1, hlists.2]
  refine or_congr_right' fun ht => ?_
  rw [((showsFound_iff hs.rows hs.result).1 hs).resolve_left ht]

/-- A search shows what it finds, whatever was shown before. -/
theorem showsFound_textDidChange {searchText : String}
    (hmain : s'.feed.main = s.feed.main.textDidChange F searchText)
    (htext : s'.searchText = searchText) : s'.ShowsFound F := by
  subst htext
  have hresult : s'.feed.main.showResult = (s'.searchText ≠ "") := by
    rw [hmain]
    exact propext decide_eq_true_iff
  have hrows : s'.feed.main.rows = s'.feed.main.shown.length := by
    rw [hmain]
    exact rows_reloadData _
  refine (showsFound_iff hrows hresult).2 (.inr ?_)
  rw [hmain]
  rfl

/-- After a step the collection view shows what is found just when the step changed nothing
about it, or no text is entered. -/
theorem showsFound_step_iff (h : step F s e = some s') (hs : s.ShowsFound F) :
    s'.ShowsFound F ↔ s.Unchanging F e := by
  obtain ⟨hstep, htext⟩ := step_cases h
  rcases Feed.main_cases hstep with ⟨searchText, rfl, -, hmain⟩ | ⟨hne, hd, -, hmain⟩ |
    ⟨post, rfl, hd, -, hmain⟩ | ⟨r, post, rfl, hd, -, hmain⟩
  · obtain ⟨_, he, htext⟩ := htext.resolve_right fun h => h.1 _ rfl
    cases he
    exact iff_of_true (showsFound_textDidChange hmain htext) (.inr trivial)
  · have htext := (htext.resolve_left fun ⟨_, he, _⟩ => hne _ he).2
    unfold Unchanging
    rw [hd]
    refine iff_of_true ⟨?_, ?_, ?_⟩ (.inr trivial)
    · rw [hmain]
      exact hs.rows
    · rw [hmain, htext]
      exact hs.result
    · have hshown := hs.shown
      unfold hits at hshown ⊢
      rwa [hmain, htext]
  · refine Iff.trans (showsFound_iff_of_posts hs (htext.resolve_left (by simp)).2 hmain)
      (or_congr_right ?_)
    rw [hd, sort_orderedDescending]
    exact filter_appendSort_eq_iff latest _ _ _
  · refine Iff.trans (showsFound_iff_of_posts hs (htext.resolve_left (by simp)).2 hmain)
      (or_congr_right ?_)
    rw [hd]

/-- What the closures were told, and what ran since the text last changed. -/
structure Since where
  /-- the posts of the feed when the text last changed -/
  posts : List Posts := []
  /-- the refresh whose closure ran last since then -/
  refreshed : Option ℕ := none
  /-- the posts that the closure of `observeUser` was told since then, and since that closure -/
  told : List Posts := []
  /-- the posts that the closure of each refresh was told, in the whole run -/
  toldTo : ℕ → List Posts := fun _ => []

def Since.next (since : Since) (s : SearchedFeed) (e : Feed.Event) : Since :=
  match e with
  | .textDidChange _ =>
    { since with posts := s.feed.main.posts, refreshed := none, told := [] }
  | _ =>
    match s.feed.delivers e with
    | none => since
    | some (.observeUser, post) => { since with told := since.told ++ [post] }
    | some (.refreshData r, post) =>
      { since with
        refreshed := some r
        told := []
        toldTo := Function.update since.toldTo r (since.toldTo r ++ [post]) }

/-- The machine with what ran since the text last changed on record. -/
def recorded (F : Foundation) (s : SearchedFeed × Since) (e : Feed.Event) :
    Option (SearchedFeed × Since) :=
  (step F s.1 e).map (·, s.2.next s.1 e)

/-- The list that the closure of `observeUser` adds to. -/
def Since.base (since : Since) : List Posts :=
  match since.refreshed with
  | none => since.posts
  | some r => since.toldTo r

/-- The posts found are those of the time when the text changed, and the posts of the feed are
these, or what the last refresh was told, and what was told since. -/
structure Cached (F : Foundation) (since : Since) (s : SearchedFeed) : Prop where
  rows : s.feed.main.rows = s.feed.main.shown.length
  result : s.feed.main.showResult = (s.searchText ≠ "")
  found : s.feed.main.filteredPosts = since.posts.filter (s.hits F)
  posts : s.feed.main.posts = Lib.feed latest since.base since.told
  captured : s.feed.newPosts = since.toldTo

theorem cached_init (F : Foundation) : Cached F {} {} where
  rows := rfl
  result := by simp
  found := rfl
  posts := rfl
  captured := rfl

theorem Cached.showsFound_iff {since : Since} (hc : s.Cached F since) :
    s.ShowsFound F ↔ s.searchText = "" ∨
      s.feed.main.posts.filter (s.hits F) = since.posts.filter (s.hits F) :=
  hc.found ▸ SearchedFeed.showsFound_iff hc.rows hc.result

/-- A closure changes the posts and leaves what was found. -/
theorem Cached.reload {since since' : Since} (hc : s.Cached F since)
    (htext : s'.searchText = s.searchText) {posts : List Posts}
    (hmain : s'.feed.main = { s.feed.main with posts }.reloadData)
    (hsame : since'.posts = since.posts)
    (hposts : posts = Lib.feed latest since'.base since'.told)
    (hcaptured : s'.feed.newPosts = since'.toldTo) : s'.Cached F since' where
  rows := by
    rw [hmain]
    exact rows_reloadData _
  result := by
    rw [hmain, htext]
    exact hc.result
  found := by
    rw [hmain, hsame, hits_congr htext]
    exact hc.found
  posts := by
    rw [hmain]
    exact hposts
  captured := hcaptured

theorem cached_textDidChange {since : Since} {searchText : String}
    (hmain : s'.feed.main = s.feed.main.textDidChange F searchText)
    (htext : s'.searchText = searchText) (hcaptured : s'.feed.newPosts = since.toldTo) :
    s'.Cached F (since.next s (.textDidChange searchText)) := by
  subst htext
  refine ⟨?_, ?_, ?_, ?_, hcaptured⟩ <;> rw [hmain]
  · exact rows_reloadData _
  · exact propext decide_eq_true_iff
  · rfl
  · rfl

theorem cached_step {since : Since} (h : step F s e = some s') (hc : s.Cached F since) :
    s'.Cached F (since.next s e) := by
  obtain ⟨hstep, htext⟩ := step_cases h
  rcases Feed.main_cases hstep with ⟨searchText, rfl, hnew, hmain⟩ | ⟨hne, hd, hnew, hmain⟩ |
    ⟨post, rfl, hd, hnew, hmain⟩ | ⟨r, post, rfl, hd, hnew, hmain⟩
  · obtain ⟨_, he, htext⟩ := htext.resolve_right fun h => h.1 _ rfl
    cases he
    exact cached_textDidChange hmain htext (hnew.trans hc.captured)
  · have htext := (htext.resolve_left fun ⟨_, he, _⟩ => hne _ he).2
    have hnext : since.next s e = since := by
      unfold Since.next
      split
      · exact absurd rfl (hne _)
      · rw [hd]
    rw [hnext]
    exact ⟨hmain ▸ hc.rows, by rw [hmain, htext]; exact hc.result,
      by rw [hmain, hits_congr htext]; exact hc.found, hmain ▸ hc.posts, hnew.trans hc.captured⟩
  · have hnext : since.next s .runMain = { since with told := since.told ++ [post] } := by
      simp only [Since.next, hd]
    have hposts : sort orderedDescending (s.feed.main.posts ++ [post]) =
        Lib.feed latest since.base (since.told ++ [post]) := by
      rw [hc.posts, feed_append]
      exact sort_orderedDescending _
    rw [hnext]
    exact hc.reload (htext.resolve_left (by simp)).2 hmain rfl hposts (hnew.trans hc.captured)
  · have hnext : since.next s .runMain =
        { since with
          refreshed := some r
          told := []
          toldTo := Function.update since.toldTo r (since.toldTo r ++ [post]) } := by
      simp only [Since.next, hd]
    have hposts : s.feed.newPosts r ++ [post] =
        Function.update since.toldTo r (since.toldTo r ++ [post]) r := by
      rw [Function.update_self, hc.captured]
    rw [hnext]
    exact hc.reload (htext.resolve_left (by simp)).2 hmain rfl hposts (by rw [hnew, hc.captured])

/-- In every run, without a text the collection view shows the list. With one, and no refresh
since the text last changed, it shows what is found just when none of the posts that the closure
of `observeUser` was told since matches, and the posts found were in date order if it was told
any; so a change of the text repairs whatever was shown. After a refresh it shows what is found
just when the matching posts the refresh was told, and `observeUser` since, are those found. -/
theorem shows_found {since : Since} {evs : List Feed.Event}
    (h : Path (recorded F) anyStep ({}, {}) evs (s, since)) :
    (s.searchText = "" → s.ShowsFound F) ∧
      (since.refreshed = none →
        (s.ShowsFound F ↔ s.searchText = "" ∨
          (∀ p ∈ since.told, s.hits F p = false) ∧
            (since.told = [] ∨ InOrder latest (since.posts.filter (s.hits F))))) ∧
      ∀ r, since.refreshed = some r →
        (s.ShowsFound F ↔ s.searchText = "" ∨
          (Lib.feed latest (since.toldTo r) since.told).filter (s.hits F) =
            since.posts.filter (s.hits F)) := by
  have hc : s.Cached F since := by
    refine h.invariant (fun s => s.1.Cached F s.2) (cached_init F) ?_
    rintro ⟨s, since⟩ e s' hc - hstep
    obtain ⟨s₁, h, rfl⟩ := Option.map_eq_some_iff.1 hstep
    exact cached_step h hc
  have hposts := hc.posts
  unfold Since.base at hposts
  refine ⟨fun ht => hc.showsFound_iff.2 (.inl ht), fun hno => ?_, fun r hr => ?_⟩
  · rw [hno] at hposts
    rw [hc.showsFound_iff, hposts, filter_feed_eq_iff]
  · rw [hr] at hposts
    rw [hc.showsFound_iff, hposts]

/-- A post that does not match arrives during a search, after a refresh before it. -/
theorem shows_found_run :
    let evs : List Feed.Event :=
      [.viewDidLoad, .uploadPost "Swift" "text" "Jun 1, 2020 at 9:00 AM" "ann" "a" "p1",
        .runMain, .runMain, .refreshData, .runMain, .runMain, .runMain, .textDidChange "swift",
        .uploadPost "Lean" "text" "Jun 2, 2020 at 9:00 AM" "ann" "a" "p2", .runMain, .runMain,
        .runMain]
    ∃ s since, Path (recorded .ascii) anyStep ({}, {}) evs (s, since) ∧
      s.searchText = "swift" ∧ since.told.map (·.postId) = ["p2"] ∧ s.ShowsFound .ascii := by
  intro evs
  have h : Path (recorded .ascii) anyStep ({}, {}) evs _ := .of_exec_get (by decide)
  exact ⟨_, _, h, by decide, by decide, ((shows_found h).2.1 (by decide)).2 (by decide)⟩

/-- A post that matches arrives during the search and is not shown. -/
theorem match_not_shown :
    ¬ ∀ (F : Foundation) (evs : List Feed.Event) (s : SearchedFeed),
        Path (step F) anyStep {} evs s → s.ShowsFound F := by
  intro hall
  have hrun : Path (step .ascii) anyStep {}
      [.viewDidLoad, .textDidChange "swift",
        .uploadPost "Swift" "text" "Jun 1, 2020 at 9:00 AM" "ann" "a" "p1", .runMain, .runMain]
      _ := .of_exec_get (by decide)
  exact absurd (hall _ _ _ hrun).shown (by decide)

end SearchedFeed

end DevPost
