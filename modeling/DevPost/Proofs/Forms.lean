import DevPost.Spec.Forms

/-! Two devices that edit one record. Both screens write every field they show, so the
session that is confirmed last also writes the fields it did not touch, as it had
loaded them. -/

namespace DevPost

open Lib FirebaseServices

/-- What two sessions leave in the record, in any order of what the devices are told, of the
forms they fill and of the two confirmations, if they change different fields. -/
def LastWins {κ τ : Type} (F : Form Record κ String τ) : Prop :=
  ∀ (r : Record) (evs : List (Shared.Event Bool κ String τ)) (s : Shared Bool Record κ String)
    (x y : Session κ String), Path (Shared.step F) anyStep (Shared.start r) evs s →
    s.confirmed = [x, y] → Disjoint x.changed y.changed →
    F.read s.record = y.texts ∧
      (s.Keeps F x ∧ s.Keeps F y ↔ ∀ f ∈ x.changed, y.loaded f = x.texts f) ∧
      (y.version = some 1 → s.Keeps F x ∧ s.Keeps F y) ∧
      (x.version = some 0 → y.version = some 0 →
        (s.Keeps F x ∧ s.Keeps F y ↔ x.changed = ∅))

theorem last_wins_form {κ τ : Type} (F : Form Record κ String τ) : LastWins F := by
  intro r evs s x y h hxy hdisj
  have hiff := Shared.keeps_both_iff h hxy hdisj
  refine ⟨Shared.read_last h hxy, hiff, fun hy => ?_, fun hx hy => ?_⟩
  · rw [hiff, Shared.loaded_after h hxy hy]
    exact fun _ _ => rfl
  · rw [hiff, Shared.loaded_before h hxy hx hy, Set.eq_empty_iff_forall_notMem]
    -- a changed field is one whose text is not the loaded one
    exact forall_congr' fun f => ⟨fun hf hc => hc (hf hc).symm, fun hf hc => absurd hc hf⟩

/-- The record shows the form that was confirmed last, so both sessions' changes are in it
exactly when the last one had loaded the other's: if its copy was of the version the other
one made, and, if both had a copy from before, only if the other one changed nothing. -/
theorem last_wins : LastWins editProfileController ∧ LastWins editUserPostController :=
  ⟨last_wins_form _, last_wins_form _⟩

/-- The texts of a profile form. -/
def profile (username title repo : String) : ProfileField → String
  | .username => username
  | .title => title
  | .repo => repo

/-- The first session sets the title, the second the repo, with a copy that has the title. -/
theorem last_wins_run :
    ∃ s x y, Path (Shared.step editProfileController) anyStep
        (Shared.start (Table.ofList (createUserValues "ann@dev.io" "ann")))
        [.hear false 0, .load false, .confirm false (profile "ann" "dev" "") (),
          .hear true 1, .load true, .confirm true (profile "ann" "dev" "git") ()] s ∧
      s.confirmed = [x, y] ∧ Disjoint x.changed y.changed ∧
      s.Keeps editProfileController x ∧ s.Keeps editProfileController y := by
  have h : Path (Shared.step editProfileController) anyStep
      (Shared.start (Table.ofList (createUserValues "ann@dev.io" "ann")))
      [.hear false 0, .load false, .confirm false (profile "ann" "dev" "") (),
        .hear true 1, .load true, .confirm true (profile "ann" "dev" "git") ()] _ :=
    .of_exec_get (by decide)
  refine ⟨_, _, _, h, rfl, ?disjoint, (last_wins.1 _ _ _ _ _ h rfl ?disjoint).2.2.1 rfl⟩
  refine Set.disjoint_left.2 fun f hx hy => ?_
  cases f with
  | username => exact hx (by decide)
  | title => exact hy (by decide)
  | repo => exact hx (by decide)

/-- Two sessions that had loaded the same copy: the repo is set and the title is gone. -/
theorem update_lost :
    ¬ ∀ (r : Record) (evs : List (Shared.Event Bool ProfileField String Unit))
        (s : Shared Bool Record ProfileField String) (x y : Session ProfileField String),
        Path (Shared.step editProfileController) anyStep (Shared.start r) evs s →
        s.confirmed = [x, y] → Disjoint x.changed y.changed →
        s.Keeps editProfileController x ∧ s.Keeps editProfileController y := by
  intro hall
  have h : Path (Shared.step editProfileController) anyStep
      (Shared.start (Table.ofList (createUserValues "ann@dev.io" "ann")))
      [.hear false 0, .hear true 0, .load false, .load true,
        .confirm false (profile "ann" "dev" "") (), .confirm true (profile "ann" "" "git") ()] _ :=
    .of_exec_get (by decide)
  have hkeeps := (hall _ _ _ _ _ h rfl ?disjoint).1 .title (by decide)
  · exact absurd hkeeps (by decide)
  · refine Set.disjoint_left.2 fun f hx hy => ?_
    cases f with
    | username => exact hx (by decide)
    | title => exact hy (by decide)
    | repo => exact hx (by decide)

end DevPost
