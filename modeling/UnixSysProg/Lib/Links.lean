/-
Chains of pointers. `Path next start xs stop` says that following `next` from `start` visits the nodes
`xs` in order and comes to `stop`. A path depends on the pointers of its own nodes alone; sending the
pointer of its last node elsewhere moves its end (`Path.relink`), and from this a node is linked in behind
the last one, or taken out from between two others, with one pointer changed.
-/
import Mathlib.Data.List.Nodup
import Mathlib.Logic.Function.Basic

namespace UnixSysProg.Lib

variable {α : Type} {next next' : α → Option α} {start stop stop' : Option α} {xs ys : List α} {x z : α}

/-- Following `next` from `start` visits `xs` and comes to `stop`. -/
def Path (next : α → Option α) : Option α → List α → Option α → Prop
  | start, [], stop => start = stop
  | start, x :: xs, stop => start = some x ∧ Path next (next x) xs stop

@[simp] theorem path_nil : Path next start [] stop ↔ start = stop := Iff.rfl

theorem path_cons : Path next start (x :: xs) stop ↔ start = some x ∧ Path next (next x) xs stop := Iff.rfl

theorem path_append : ∀ {start : Option α} {xs : List α}, Path next start (xs ++ ys) stop ↔
    ∃ mid, Path next start xs mid ∧ Path next mid ys stop
  | start, [] => by simp
  | start, x :: xs => by
    rw [List.cons_append, path_cons, path_append]
    constructor
    · rintro ⟨hx, mid, hxs, hys⟩
      exact ⟨mid, ⟨hx, hxs⟩, hys⟩
    · rintro ⟨mid, ⟨hx, hxs⟩, hys⟩
      exact ⟨hx, mid, hxs, hys⟩

theorem path_concat : Path next start (xs ++ [x]) stop ↔ Path next start xs (some x) ∧ next x = stop := by
  rw [path_append]
  constructor
  · rintro ⟨mid, hxs, rfl, hx⟩
    exact ⟨hxs, hx⟩
  · rintro ⟨hxs, hx⟩
    exact ⟨some x, hxs, rfl, hx⟩

/-- Other nodes' pointers do not matter. -/
theorem Path.congr : ∀ {start : Option α} {xs : List α}, Path next start xs stop → (∀ v ∈ xs, next' v = next v) →
    Path next' start xs stop
  | _, [], h, _ => h
  | _, x :: xs, ⟨hx, hxs⟩, hnext => by
    rw [List.forall_mem_cons] at hnext
    refine ⟨hx, ?_⟩
    rw [hnext.1]
    exact hxs.congr hnext.2

/-- A path to the end starts at its first node. -/
theorem Path.start_eq (h : Path next start xs none) : start = xs.head? := by
  cases xs with
  | nil => exact h
  | cons x xs => exact h.1

/-- What a node points to is on the path. -/
theorem Path.mem_of_next : ∀ {start : Option α} {xs : List α}, Path next start xs none → x ∈ xs →
    next x = some z → z ∈ xs
  | _, y :: ys, ⟨_, hys⟩, hx, hz => by
    rcases List.mem_cons.1 hx with rfl | hx
    · have hhead := hys.start_eq
      rw [hz] at hhead
      exact List.mem_cons_of_mem _ (List.mem_of_head? hhead.symm)
    · exact List.mem_cons_of_mem _ (hys.mem_of_next hx hz)

/-- The last node points elsewhere. Without a last node the path starts elsewhere. -/
theorem Path.relink (h : Path next start xs stop) (hn : xs.Nodup) (hlast : ∀ z, xs.getLast? = some z → next' z = stop')
    (hrest : ∀ v ∈ xs, xs.getLast? ≠ some v → next' v = next v) :
    Path next' (if xs = [] then stop' else start) xs stop' := by
  rcases List.eq_nil_or_concat' xs with rfl | ⟨ys, z, rfl⟩
  · rw [if_pos rfl]
    rfl
  · rw [if_neg (by simp), path_concat]
    rw [path_concat] at h
    refine ⟨h.1.congr fun v hv => hrest v (List.mem_append_left _ hv) fun hv' => ?_, hlast z (by simp)⟩
    exact (List.nodup_append.1 hn).2.2 v hv z (List.mem_singleton_self z) (by simpa using hv'.symm)

/-- A node is linked in behind the last one. -/
theorem Path.snoc (h : Path next start xs none) (hn : xs.Nodup) (hx : next' x = none)
    (hlast : ∀ z, xs.getLast? = some z → next' z = some x)
    (hrest : ∀ v ∈ xs, xs.getLast? ≠ some v → next' v = next v) :
    Path next' (if xs = [] then some x else start) (xs ++ [x]) none :=
  path_concat.2 ⟨h.relink hn hlast hrest, hx⟩

/-- A node is taken out from between two others. -/
theorem Path.unlink (h : Path next start (xs ++ x :: ys) none) (hn : (xs ++ x :: ys).Nodup)
    (hlast : ∀ z, xs.getLast? = some z → next' z = next x)
    (hrest : ∀ v ∈ xs ++ ys, xs.getLast? ≠ some v → next' v = next v) :
    Path next' (if xs = [] then next x else start) (xs ++ ys) none := by
  obtain ⟨mid, hxs, hx, hys⟩ := path_append.1 h
  have hparts := List.nodup_append.1 hn
  refine path_append.2 ⟨next x, hxs.relink hparts.1 hlast fun v hv hv' => hrest v (List.mem_append_left _ hv) hv', ?_⟩
  refine hys.congr fun v hv => hrest v (List.mem_append_right _ hv) fun hv' => ?_
  exact hparts.2.2 v (List.mem_of_getLast? hv') v (List.mem_cons_of_mem _ hv) rfl

end UnixSysProg.Lib
