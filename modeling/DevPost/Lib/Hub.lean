import DevPost.Lib.Table

/-! A keyed node watched by child-added listeners, as one device sees it through
its main queue. A new child raises one event for each listener in registration
order, a new listener receives the children already there, and the handler of an
event puts the listener's block back on the queue. Two hops on one FIFO queue
keep the order: `inflight` is the sequence of deliveries still owed, and only the
end of it grows. -/

namespace Lib

/-- A task of the main queue: an event raised for a listener, the block its handler
dispatches, or work of another kind. -/
inductive Task (L ρ α τ : Type*)
  | event (l : L) (r : ρ)
  | block (l : L) (a : α)
  | other (t : τ)
deriving DecidableEq

section Queue

variable {L ρ α τ : Type*} (dec : ρ → Option α)

def blocks (q : List (Task L ρ α τ)) : List (L × α) :=
  q.filterMap fun
    | .block l a => some (l, a)
    | _ => none

def events (q : List (Task L ρ α τ)) : List (L × α) :=
  q.filterMap fun
    | .event l r => (dec r).map (l, ·)
    | _ => none

/-- The work of another kind still waiting. -/
def others (q : List (Task L ρ α τ)) : List τ :=
  q.filterMap fun
    | .other t => some t
    | _ => none

/-- The deliveries still owed, in the order in which their blocks will run. -/
def inflight (q : List (Task L ρ α τ)) : List (L × α) := blocks q ++ events dec q

/-- What the handler of an event puts on the queue. -/
def handle (l : L) (r : ρ) : List (Task L ρ α τ) :=
  match dec r with
  | some a => [.block l a]
  | none => []

/-- The events of one change, one for each listener. -/
def raise (ls : List L) (r : ρ) : List (Task L ρ α τ) := ls.map (.event · r)

/-- The events of a registration, one for each child. -/
def snapshot (l : L) (rs : List ρ) : List (Task L ρ α τ) := rs.map (.event l ·)

@[simp] theorem inflight_nil : inflight dec ([] : List (Task L ρ α τ)) = [] := rfl

/-- Running an event's handler moves a delivery between the hops, never past another. -/
theorem inflight_handle (l : L) (r : ρ) (q : List (Task L ρ α τ)) :
    inflight dec (q ++ handle dec l r) = inflight dec (.event l r :: q) := by
  cases h : dec r <;> simp [inflight, blocks, events, handle, h, List.filterMap_append]

@[simp] theorem inflight_block (l : L) (a : α) (q : List (Task L ρ α τ)) :
    inflight dec (.block l a :: q) = (l, a) :: inflight dec q := rfl

@[simp] theorem inflight_other (t : τ) (q : List (Task L ρ α τ)) :
    inflight dec (.other t :: q) = inflight dec q := rfl

@[simp] theorem inflight_append_other (q : List (Task L ρ α τ)) (ts : List τ) :
    inflight dec (q ++ ts.map .other) = inflight dec q := by
  simp [inflight, blocks, events, List.filterMap_append, List.filterMap_map]

theorem inflight_append_raise (q : List (Task L ρ α τ)) (ls : List L) (r : ρ) :
    inflight dec (q ++ raise ls r) =
      inflight dec q ++ ls.filterMap fun l => (dec r).map (l, ·) := by
  simp [inflight, blocks, events, raise, List.filterMap_append, List.filterMap_map]

theorem inflight_append_snapshot (q : List (Task L ρ α τ)) (l : L) (rs : List ρ) :
    inflight dec (q ++ snapshot l rs) =
      inflight dec q ++ rs.filterMap fun r => (dec r).map (l, ·) := by
  simp [inflight, blocks, events, snapshot, List.filterMap_append, List.filterMap_map]

@[simp] theorem others_nil : others ([] : List (Task L ρ α τ)) = [] := rfl

@[simp] theorem others_event (l : L) (r : ρ) (q : List (Task L ρ α τ)) :
    others (.event l r :: q) = others q := rfl

@[simp] theorem others_block (l : L) (a : α) (q : List (Task L ρ α τ)) :
    others (.block l a :: q) = others q := rfl

@[simp] theorem others_other (t : τ) (q : List (Task L ρ α τ)) :
    others (.other t :: q) = t :: others q := rfl

@[simp] theorem others_append (p q : List (Task L ρ α τ)) :
    others (p ++ q) = others p ++ others q := List.filterMap_append ..

@[simp] theorem others_handle (l : L) (r : ρ) :
    others (handle dec l r : List (Task L ρ α τ)) = [] := by
  cases h : dec r <;> simp [others, handle, h]

@[simp] theorem others_raise (ls : List L) (r : ρ) :
    others (raise ls r : List (Task L ρ α τ)) = [] := by
  simp [others, raise, List.filterMap_map]

@[simp] theorem others_snapshot (l : L) (rs : List ρ) :
    others (snapshot l rs : List (Task L ρ α τ)) = [] := by
  simp [others, snapshot, List.filterMap_map]

@[simp] theorem others_map_other (ts : List τ) :
    others (ts.map .other : List (Task L ρ α τ)) = ts := by
  simp [others, List.filterMap_map]

section Owed

variable [DecidableEq L] (l : L)

/-- The records whose events for one listener still wait. -/
def owed (q : List (Task L ρ α τ)) : List ρ :=
  q.filterMap fun
    | .event l' r => if l' = l then some r else none
    | _ => none

@[simp] theorem owed_nil : owed l ([] : List (Task L ρ α τ)) = [] := rfl

@[simp] theorem owed_event_self (r : ρ) (q : List (Task L ρ α τ)) :
    owed l (.event l r :: q) = r :: owed l q := by
  simp [owed]

theorem owed_event_of_ne {l' : L} (h : l' ≠ l) (r : ρ) (q : List (Task L ρ α τ)) :
    owed l (.event l' r :: q) = owed l q := by
  simp [owed, h]

/-- A change is owed once to each listener. -/
theorem owed_append_raise {ls : List L} (h : ls.Nodup) (r : ρ) (q : List (Task L ρ α τ)) :
    owed l (q ++ raise ls r) = owed l q ++ if l ∈ ls then [r] else [] := by
  have hraise : owed l (raise ls r : List (Task L ρ α τ)) = if l ∈ ls then [r] else [] := by
    induction ls with
    | nil => rfl
    | cons k ls ih =>
      obtain ⟨hk, hls⟩ := List.nodup_cons.1 h
      have hcons : (raise (k :: ls) r : List (Task L ρ α τ)) = .event k r :: raise ls r := rfl
      by_cases hkl : k = l
      · subst hkl
        rw [hcons, owed_event_self, ih hls, if_neg hk, if_pos List.mem_cons_self]
      · rw [hcons, owed_event_of_ne l hkl, ih hls]
        simp [Ne.symm hkl]
  rw [← hraise]
  exact List.filterMap_append ..

theorem owed_append_snapshot_self (rs : List ρ) (q : List (Task L ρ α τ)) :
    owed l (q ++ snapshot l rs) = owed l q ++ rs := by
  simp [owed, snapshot, List.filterMap_map]

theorem owed_append_snapshot_of_ne {l' : L} (h : l' ≠ l) (rs : List ρ)
    (q : List (Task L ρ α τ)) : owed l (q ++ snapshot l' rs) = owed l q := by
  simp [owed, snapshot, List.filterMap_map, h]

end Owed

end Queue

/-- A node, its listeners in registration order, and the main queue. -/
structure Hub (κ : Type*) [LinearOrder κ] (L ρ α τ : Type*) where
  node : Table κ ρ
  listeners : List L
  queue : List (Task L ρ α τ)

namespace Hub

variable {κ : Type*} [LinearOrder κ] {L ρ α τ : Type*}

/-- Nothing stored, nobody listening. -/
def idle : Hub κ L ρ α τ := ⟨∅, [], []⟩

/-- Write a child; only a key that was absent is an addition. -/
def put (h : Hub κ L ρ α τ) (k : κ) (r : ρ) : Hub κ L ρ α τ :=
  { h with
    node := h.node.set k r
    queue := h.queue ++ if h.node.lookup k = none then raise h.listeners r else [] }

/-- Nobody listens for removals. -/
def remove (h : Hub κ L ρ α τ) (k : κ) : Hub κ L ρ α τ := { h with node := h.node.erase k }

/-- Register a listener; the children already there are its first events. -/
def observe (h : Hub κ L ρ α τ) (l : L) : Hub κ L ρ α τ :=
  { h with
    listeners := h.listeners ++ [l]
    queue := h.queue ++ snapshot l (h.node.entries.map (·.2)) }

/-- Dispatch other work to the main queue. -/
def post (h : Hub κ L ρ α τ) (ts : List τ) : Hub κ L ρ α τ :=
  { h with queue := h.queue ++ ts.map .other }

end Hub

end Lib
