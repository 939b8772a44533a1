import DevPost.Lib.Path
import Mathlib.Data.Set.Lattice
import Mathlib.Order.CompletePartialOrder

/-! Edit sessions on one shared record. A device is told of a version of the record,
now or late; a session fills its form from the copy its device has and later writes
every field of the form. So the record shows the form that was confirmed last, and the
changes of an earlier session survive exactly when the later one had loaded them. -/

namespace Lib

/-- A form on a record: the fields it shows, how it writes them, and when it refuses to.
A form that was filled from nothing shows `blank`. -/
structure Form (ρ κ α τ : Type*) where
  read : ρ → κ → α
  write : ρ → (κ → α) → τ → ρ
  blank : κ → α
  accepts : Option ℕ → (κ → α) → Bool
  read_write : ∀ r texts t, read (write r texts t) = texts

/-- A session that was confirmed: the version its copy was of, the copy and the texts. -/
structure Session (κ α : Type*) where
  version : Option ℕ
  loaded : κ → α
  texts : κ → α

/-- The fields that a session changed. -/
def Session.changed {κ α : Type*} (x : Session κ α) : Set κ := {f | x.texts f ≠ x.loaded f}

instance {κ α : Type*} [DecidableEq α] (x : Session κ α) (f : κ) : Decidable (f ∈ x.changed) :=
  inferInstanceAs (Decidable (x.texts f ≠ x.loaded f))

structure Shared (δ ρ κ α : Type*) where
  record : ρ
  /-- all the versions so far, the record last -/
  versions : List ρ
  /-- the version each device was told of last -/
  told : δ → Option ℕ := fun _ => none
  /-- the forms on screen, each with the version it was filled from -/
  form : δ → Option (Option ℕ) := fun _ => none
  /-- the sessions confirmed so far -/
  confirmed : List (Session κ α) := []

namespace Shared

inductive Event (δ κ α τ : Type*)
  | hear (d : δ) (version : ℕ)
  | load (d : δ)
  | confirm (d : δ) (texts : κ → α) (t : τ)
  | cancel (d : δ)

variable {δ ρ κ α τ : Type*} [DecidableEq δ]

def start (r : ρ) : Shared δ ρ κ α := { record := r, versions := [r] }

/-- The texts of a form that was just filled. -/
def copy (F : Form ρ κ α τ) (s : Shared δ ρ κ α) (version : Option ℕ) : κ → α :=
  match version.bind (s.versions[·]?) with
  | some r => F.read r
  | none => F.blank

def step (F : Form ρ κ α τ) (s : Shared δ ρ κ α) : Event δ κ α τ → Option (Shared δ ρ κ α)
  | .hear d version =>
    if version < s.versions.length then
      some { s with told := Function.update s.told d (some version) }
    else none
  | .load d =>
    match s.form d with
    | none => some { s with form := Function.update s.form d (some (s.told d)) }
    | some _ => none
  | .confirm d texts t =>
    match s.form d with
    | none => none
    | some version =>
      if F.accepts version texts then
        let record := F.write s.record texts t
        some { s with
          record
          versions := s.versions ++ [record]
          form := Function.update s.form d none
          confirmed := s.confirmed ++ [⟨version, s.copy F version, texts⟩] }
      else none
  | .cancel d => some { s with form := Function.update s.form d none }

variable {F : Form ρ κ α τ} {r : ρ} {s s' : Shared δ ρ κ α} {e : Event δ κ α τ}

/-- The record has every change of a session. -/
def Keeps (F : Form ρ κ α τ) (s : Shared δ ρ κ α) (x : Session κ α) : Prop :=
  ∀ f ∈ x.changed, F.read s.record f = x.texts f

/-- What a session had loaded: a version from before it was confirmed, or nothing. -/
def Loaded (F : Form ρ κ α τ) (versions : List ρ) (i : ℕ) (x : Session κ α) : Prop :=
  match x.version with
  | none => x.loaded = F.blank
  | some v => v ≤ i ∧ ∃ r, versions[v]? = some r ∧ x.loaded = F.read r

/-- The record is the last of its versions, each session made the next version, and
nobody has a version that does not exist. -/
structure Sound (F : Form ρ κ α τ) (r : ρ) (s : Shared δ ρ κ α) : Prop where
  first : s.versions[0]? = some r
  last : s.versions[s.confirmed.length]? = some s.record
  length : s.versions.length = s.confirmed.length + 1
  written : ∀ i x, s.confirmed[i]? = some x →
    (s.versions[i + 1]?).map F.read = some x.texts ∧ Loaded F s.versions i x
  told : ∀ d v, s.told d = some v → v < s.versions.length
  form : ∀ d v, s.form d = some (some v) → v < s.versions.length

omit [DecidableEq δ] in
theorem sound_start (F : Form ρ κ α τ) (r : ρ) : Sound F r (start r : Shared δ ρ κ α) where
  first := rfl
  last := rfl
  length := rfl
  written := by simp [start]
  told := by simp [start]
  form := by simp [start]

theorem Loaded.append {versions : List ρ} {i : ℕ} {x : Session κ α}
    (h : Loaded F versions i x) (hi : i < versions.length) (r : ρ) :
    Loaded F (versions ++ [r]) i x := by
  unfold Loaded at h ⊢
  split
  · rename_i hv
    simpa [hv] using h
  · rename_i v hv
    simp only [hv] at h
    obtain ⟨hle, r', hr', hx⟩ := h
    exact ⟨hle, r', by rwa [List.getElem?_append_left (hle.trans_lt hi)], hx⟩

theorem Sound.confirm (hs : Sound F r s) {d : δ} {version : Option ℕ}
    (hform : s.form d = some version) (texts : κ → α) (t : τ) :
    Sound F r { s with
      record := F.write s.record texts t
      versions := s.versions ++ [F.write s.record texts t]
      form := Function.update s.form d none
      confirmed := s.confirmed ++ [⟨version, s.copy F version, texts⟩] } where
  first := by
    rw [List.getElem?_append_left (by simp [hs.length])]
    exact hs.first
  last := by simp [hs.length]
  length := by simp [hs.length]
  written i x hx := by
    rcases Nat.lt_or_ge i s.confirmed.length with hi | hi
    · rw [List.getElem?_append_left hi] at hx
      obtain ⟨htexts, hloaded⟩ := hs.written i x hx
      have hlength := hs.length
      rw [List.getElem?_append_left (by omega)]
      exact ⟨htexts, hloaded.append (by omega) _⟩
    · obtain rfl : i = s.confirmed.length := by
        have := (List.getElem?_eq_some_iff.1 hx).1
        simp only [List.length_append, List.length_singleton] at this
        omega
      obtain rfl : ⟨version, s.copy F version, texts⟩ = x := by simpa using hx
      refine ⟨by simp [← hs.length, F.read_write], ?_⟩
      cases version with
      | none => rfl
      | some v =>
        have hv : v < s.versions.length := hs.form d v hform
        have hlength := hs.length
        refine ⟨by omega, s.versions[v], ?_, ?_⟩
        · simp [List.getElem?_append_left hv, List.getElem?_eq_getElem hv]
        · simp [copy, List.getElem?_eq_getElem hv]
  told d' v hv := by
    rw [List.length_append]
    exact (hs.told d' v hv).trans (Nat.lt_succ_self _)
  form d' v hv := by
    rw [List.length_append]
    by_cases hd : d' = d
    · simp [hd] at hv
    · exact (hs.form d' v (by simpa [Function.update_of_ne hd] using hv)).trans (Nat.lt_succ_self _)

theorem sound_step (h : step F s e = some s') (hs : Sound F r s) : Sound F r s' := by
  cases e with
  | hear d version =>
    simp only [step] at h
    split_ifs at h with hlt
    cases h
    refine ⟨hs.first, hs.last, hs.length, hs.written, fun d' v hv => ?_, hs.form⟩
    by_cases hd : d' = d
    · subst hd
      obtain rfl : version = v := by simpa using hv
      exact hlt
    · exact hs.told d' v (by simpa [Function.update_of_ne hd] using hv)
  | load d =>
    simp only [step] at h
    split at h <;> cases h
    refine ⟨hs.first, hs.last, hs.length, hs.written, hs.told, fun d' v hv => ?_⟩
    by_cases hd : d' = d
    · subst hd
      exact hs.told d' v (by simpa using hv)
    · exact hs.form d' v (by simpa [Function.update_of_ne hd] using hv)
  | confirm d texts t =>
    simp only [step] at h
    split at h
    · cases h
    · rename_i version hform
      split_ifs at h
      cases h
      exact hs.confirm hform texts t
  | cancel d =>
    cases h
    refine ⟨hs.first, hs.last, hs.length, hs.written, hs.told, fun d' v hv => ?_⟩
    by_cases hd : d' = d
    · simp [hd] at hv
    · exact hs.form d' v (by simpa [Function.update_of_ne hd] using hv)

theorem run_sound {evs : List (Event δ κ α τ)} (h : Path (step F) anyStep (start r) evs s) :
    Sound F r s :=
  h.invariant (Sound F r) (sound_start F r) fun _ _ _ hs _ h => sound_step h hs

section Two

variable {evs : List (Event δ κ α τ)} {x y : Session κ α}
variable (h : Path (step F) anyStep (start r) evs s) (hxy : s.confirmed = [x, y])
include h hxy

/-- The record shows the form that was confirmed last. -/
theorem read_last : F.read s.record = y.texts := by
  have hs := run_sound h
  have hlast := hs.last
  have hy := (hs.written 1 y (by simp [hxy])).1
  simp only [hxy, List.length_cons, List.length_nil] at hlast
  simpa [hlast] using hy

/-- Both sessions' changes are there exactly when the second had loaded the first's. -/
theorem keeps_both_iff (hdisj : Disjoint x.changed y.changed) :
    s.Keeps F x ∧ s.Keeps F y ↔ ∀ f ∈ x.changed, y.loaded f = x.texts f := by
  have hread := read_last h hxy
  have hsame : ∀ f ∈ x.changed, y.texts f = y.loaded f := fun f hf =>
    not_not.1 fun hy => Set.disjoint_left.1 hdisj hf hy
  constructor
  · rintro ⟨hx, -⟩ f hf
    rw [← hsame f hf, ← congrFun hread f]
    exact hx f hf
  · refine fun hloaded => ⟨fun f hf => ?_, fun f _ => congrFun hread f⟩
    rw [hread, hsame f hf]
    exact hloaded f hf

theorem loaded_after (hy : y.version = some 1) : y.loaded = x.texts := by
  have hs := run_sound h
  obtain ⟨-, hloaded⟩ := hs.written 1 y (by simp [hxy])
  obtain ⟨htexts, -⟩ := hs.written 0 x (by simp [hxy])
  simp only [Loaded, hy] at hloaded
  obtain ⟨-, r', hr', hy⟩ := hloaded
  simpa [hr', hy] using htexts

theorem loaded_before (hx : x.version = some 0) (hy : y.version = some 0) :
    y.loaded = x.loaded := by
  have hs := run_sound h
  have hyl := (hs.written 1 y (by simp [hxy])).2
  have hxl := (hs.written 0 x (by simp [hxy])).2
  simp only [Loaded, hx, hy, hs.first] at hxl hyl
  obtain ⟨-, r₁, h₁, hx⟩ := hxl
  obtain ⟨-, r₂, h₂, hy⟩ := hyl
  rw [hx, hy, ← Option.some.inj h₁, ← Option.some.inj h₂]

end Two

end Shared

end Lib
