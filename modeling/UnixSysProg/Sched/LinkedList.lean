/-
`list.c`, the doubly linked list of the scheduler, over elements in memory. The two directions mirror each
other: inserting at the tail is inserting at the head with the directions exchanged, and removing is its own
mirror image. Linked elements follow each other forwards along `next` and backwards along `prev`; every
insertion of a new element and every removal keeps this for the list of elements consed, appended and
erased, and leaves all other elements as they are.
-/
import UnixSysProg.Lib.Links
import UnixSysProg.Lib.Run
import UnixSysProg.Sched.Invariant

namespace UnixSysProg.Sched

open UnixSysProg.Lib

/-- `struct list_elem`, without the `info` that no function of the list reads. -/
@[ext] structure ListElem (α : Type) where
  prev : Option α
  next : Option α
  deriving DecidableEq

/-- `struct thread_info_list`, and the elements by their addresses. -/
@[ext] structure ThreadInfoList (α : Type) where
  elems : α → ListElem α
  head : Option α
  tail : Option α

namespace ThreadInfoList

variable {α : Type}

def next (list : ThreadInfoList α) (x : α) : Option α := (list.elems x).next

def prev (list : ThreadInfoList α) (x : α) : Option α := (list.elems x).prev

/-- Links are read from the elements alone. -/
theorem next_of_elems {list list' : ThreadInfoList α} (h : list.elems = list'.elems) : list.next = list'.next := by
  unfold next
  rw [h]

theorem prev_of_elems {list list' : ThreadInfoList α} (h : list.elems = list'.elems) : list.prev = list'.prev := by
  unfold prev
  rw [h]

/-- The pointers to the ends are no links. -/
@[simp] theorem next_mk (list : ThreadInfoList α) (head tail : Option α) (x : α) :
    (⟨list.elems, head, tail⟩ : ThreadInfoList α).next x = list.next x := rfl

@[simp] theorem prev_mk (list : ThreadInfoList α) (head tail : Option α) (x : α) :
    (⟨list.elems, head, tail⟩ : ThreadInfoList α).prev x = list.prev x := rfl

/-- The list read backwards. -/
def flip (list : ThreadInfoList α) : ThreadInfoList α where
  elems x := ⟨list.next x, list.prev x⟩
  head := list.tail
  tail := list.head

section

variable (list : ThreadInfoList α) (x : α)

@[simp] theorem flip_next : list.flip.next x = list.prev x := rfl

@[simp] theorem flip_prev : list.flip.prev x = list.next x := rfl

@[simp] theorem flip_head : list.flip.head = list.tail := rfl

@[simp] theorem flip_tail : list.flip.tail = list.head := rfl

@[simp] theorem flip_flip : list.flip.flip = list := rfl

end

/-- Lists with the same links and ends are the same. -/
theorem ext_links {list list' : ThreadInfoList α} (hnext : ∀ x, list.next x = list'.next x)
    (hprev : ∀ x, list.prev x = list'.prev x) (hhead : list.head = list'.head) (htail : list.tail = list'.tail) :
    list = list' :=
  ThreadInfoList.ext (funext fun x => ListElem.ext (hprev x) (hnext x)) hhead htail

/-! ## Linked elements -/

/-- The elements follow each other in both directions. -/
structure Linked (list : ThreadInfoList α) (xs : List α) : Prop where
  nodup : xs.Nodup
  forward : Path list.next list.head xs none
  backward : Path list.prev list.tail xs.reverse none

namespace Linked

variable {list : ThreadInfoList α} {xs ys : List α} {x y : α}

theorem flip (h : Linked list xs) : Linked list.flip xs.reverse where
  nodup := List.nodup_reverse.2 h.nodup
  forward := h.backward
  backward := by rw [List.reverse_reverse]; exact h.forward

theorem head_eq (h : Linked list xs) : list.head = xs.head? := h.forward.start_eq

theorem tail_eq (h : Linked list xs) : list.tail = xs.getLast? := by
  rw [h.backward.start_eq, List.head?_reverse]

theorem prev_eq (h : Linked list (xs ++ x :: ys)) : list.prev x = xs.getLast? := by
  have hback := h.backward
  rw [List.reverse_append, List.reverse_cons, List.append_assoc, path_append] at hback
  obtain ⟨mid, _, _, hxs⟩ := hback
  exact hxs.start_eq.trans List.head?_reverse

end Linked

variable [DecidableEq α]

/-! ## Operations -/

/-- `e->next = v`, where `e` is not null. -/
def setNext (list : ThreadInfoList α) (e v : Option α) : ThreadInfoList α :=
  match e with
  | some e => { list with elems := Function.update list.elems e { list.elems e with next := v } }
  | none => list

/-- `e->prev = v`, where `e` is not null. -/
def setPrev (list : ThreadInfoList α) (e v : Option α) : ThreadInfoList α :=
  match e with
  | some e => { list with elems := Function.update list.elems e { list.elems e with prev := v } }
  | none => list

def insertHead (list : ThreadInfoList α) (new : α) : ThreadInfoList α :=
  let list := list.setNext (some new) list.head
  let list := list.setPrev (some new) none
  let list := list.setPrev (list.next new) (some new)
  let list := { list with head := some new }
  if list.tail = none then { list with tail := some new } else list

def insertTail (list : ThreadInfoList α) (new : α) : ThreadInfoList α :=
  let list := list.setPrev (some new) list.tail
  let list := list.setNext (some new) none
  let list := list.setNext (list.prev new) (some new)
  let list := { list with tail := some new }
  if list.head = none then { list with head := some new } else list

def remove (list : ThreadInfoList α) (old : α) : ThreadInfoList α :=
  let list := list.setPrev (list.next old) (list.prev old)
  let list := list.setNext (list.prev old) (list.next old)
  let list := if list.tail = some old then { list with tail := list.prev old } else list
  let list := if list.head = some old then { list with head := list.next old } else list
  (list.setPrev (some old) none).setNext (some old) none

/-- The loop of `list_size`, for at most so many passes. -/
def countFrom (list : ThreadInfoList α) : Nat → Option α → Int32 → Option Int32
  | _, none, cnt => some cnt
  | 0, some _, _ => none
  | passes + 1, some le, cnt => list.countFrom passes (list.next le) (cnt + 1)

/-- `list_size`. A null pointer for the list is `none`. -/
def listSize (passes : Nat) : Option (ThreadInfoList α) → Option Int32
  | none => some (-1)
  | some list => list.countFrom passes list.head 0

/-- `list_insert_head`. -/
def listInsertHead : Option (ThreadInfoList α) → Option α → Option (ThreadInfoList α) × Int32
  | some list, some new => (some (list.insertHead new), 0)
  | list, _ => (list, -1)

/-- `list_insert_tail`. -/
def listInsertTail : Option (ThreadInfoList α) → Option α → Option (ThreadInfoList α) × Int32
  | some list, some new => (some (list.insertTail new), 0)
  | list, _ => (list, -1)

/-- `list_remove`. -/
def listRemove : Option (ThreadInfoList α) → Option α → Option (ThreadInfoList α) × Int32
  | some list, some old => (some (list.remove old), 0)
  | list, _ => (list, -1)

/-! ## What an operation changes -/

variable (list : ThreadInfoList α) (e v : Option α) (new old x : α)

@[simp] theorem setNext_next : (list.setNext e v).next x = if e = some x then v else list.next x := by
  cases e with
  | none => rfl
  | some y =>
    by_cases hx : x = y
    · subst hx; simp [setNext, next]
    · simp [setNext, next, hx, Ne.symm hx]

@[simp] theorem setNext_prev : (list.setNext e v).prev x = list.prev x := by
  cases e with
  | none => rfl
  | some y =>
    by_cases hx : x = y
    · subst hx; simp [setNext, prev]
    · simp [setNext, prev, hx]

@[simp] theorem setPrev_prev : (list.setPrev e v).prev x = if e = some x then v else list.prev x := by
  cases e with
  | none => rfl
  | some y =>
    by_cases hx : x = y
    · subst hx; simp [setPrev, prev]
    · simp [setPrev, prev, hx, Ne.symm hx]

@[simp] theorem setPrev_next : (list.setPrev e v).next x = list.next x := by
  cases e with
  | none => rfl
  | some y =>
    by_cases hx : x = y
    · subst hx; simp [setPrev, next]
    · simp [setPrev, next, hx]

@[simp] theorem setNext_head : (list.setNext e v).head = list.head := by cases e <;> rfl

@[simp] theorem setNext_tail : (list.setNext e v).tail = list.tail := by cases e <;> rfl

@[simp] theorem setPrev_head : (list.setPrev e v).head = list.head := by cases e <;> rfl

@[simp] theorem setPrev_tail : (list.setPrev e v).tail = list.tail := by cases e <;> rfl

theorem insertHead_elems : (list.insertHead new).elems =
    (((list.setNext (some new) list.head).setPrev (some new) none).setPrev list.head (some new)).elems := by
  unfold insertHead
  simp only [setPrev_next, setNext_next, if_true]
  split <;> rfl

theorem insertHead_next : (list.insertHead new).next x = if x = new then list.head else list.next x := by
  rw [next_of_elems (list.insertHead_elems new)]
  simp [eq_comm]

theorem insertHead_prev : (list.insertHead new).prev x =
    if list.head = some x then some new else if x = new then none else list.prev x := by
  rw [prev_of_elems (list.insertHead_elems new)]
  simp [eq_comm]

@[simp] theorem insertHead_head : (list.insertHead new).head = some new := by
  unfold insertHead
  dsimp only
  split <;> rfl

@[simp] theorem insertHead_tail : (list.insertHead new).tail = if list.tail = none then some new else list.tail := by
  unfold insertHead
  simp only [setPrev_tail, setNext_tail]
  split <;> simp_all

theorem remove_elems : (list.remove old).elems = ((((list.setPrev (list.next old) (list.prev old)).setNext
    (list.prev old) (list.next old)).setPrev (some old) none).setNext (some old) none).elems := by
  unfold remove
  simp only [setPrev_next, setPrev_prev, ite_self]
  split <;> split <;> rfl

theorem remove_next : (list.remove old).next x =
    if x = old then none else if list.prev old = some x then list.next old else list.next x := by
  rw [next_of_elems (list.remove_elems old)]
  simp [eq_comm]

theorem remove_prev : (list.remove old).prev x =
    if x = old then none else if list.next old = some x then list.prev old else list.prev x := by
  rw [prev_of_elems (list.remove_elems old)]
  simp [eq_comm]

theorem remove_head : (list.remove old).head = if list.head = some old then list.next old else list.head := by
  unfold remove
  simp
  split <;> split <;> simp_all

theorem remove_tail : (list.remove old).tail = if list.tail = some old then list.prev old else list.tail := by
  unfold remove
  simp
  split <;> split <;> simp_all

/-! ## The other direction -/

/-- Inserting at the tail is inserting at the head of the list read backwards. -/
theorem insertTail_flip : (list.insertTail new).flip = list.flip.insertHead new := by
  refine ext_links (fun x => ?_) (fun x => ?_) ?_ ?_
  all_goals unfold insertTail insertHead
  all_goals simp
  all_goals split <;> simp

/-- Removing reads the same backwards. -/
theorem remove_flip : (list.remove old).flip = list.flip.remove old := by
  refine ext_links (fun x => ?_) (fun x => ?_) ?_ ?_
  · rw [flip_next, remove_next, remove_prev]
    rfl
  · rw [flip_prev, remove_next, remove_prev]
    rfl
  · rw [flip_head, remove_head, remove_tail]
    rfl
  · rw [flip_tail, remove_head, remove_tail]
    rfl

/-! ## Operations keep the elements linked -/

namespace Linked

variable {list : ThreadInfoList α} {xs ys : List α} {x y : α}

/-- A new element at the head. -/
theorem insertHead (h : Linked list xs) (hx : x ∉ xs) : Linked (list.insertHead x) (x :: xs) := by
  have hhead : list.head ≠ some x := by
    rw [h.head_eq]
    exact fun he => hx (List.mem_of_head? he)
  refine ⟨List.nodup_cons.2 ⟨hx, h.nodup⟩, ⟨list.insertHead_head x, ?_⟩, ?_⟩
  · rw [insertHead_next, if_pos rfl]
    refine h.forward.congr fun v hv => ?_
    rw [insertHead_next, if_neg]
    rintro rfl
    exact hx hv
  · have hempty : list.tail = none ↔ xs.reverse = [] := by
      rw [h.tail_eq, List.getLast?_eq_none_iff, List.reverse_eq_nil_iff]
    rw [List.reverse_cons, insertHead_tail]
    simp only [hempty]
    refine h.backward.snoc (List.nodup_reverse.2 h.nodup) ?_ (fun z hz => ?_) fun v hv hlast => ?_
    · rw [insertHead_prev, if_neg hhead, if_pos rfl]
    · rw [List.getLast?_reverse, ← h.head_eq] at hz
      rw [insertHead_prev, if_pos hz]
    · rw [List.getLast?_reverse, ← h.head_eq] at hlast
      rw [insertHead_prev, if_neg hlast, if_neg]
      rintro rfl
      exact hx (List.mem_reverse.1 hv)

/-- A new element at the tail. -/
theorem insertTail (h : Linked list xs) (hx : x ∉ xs) : Linked (list.insertTail x) (xs ++ [x]) := by
  have hflip := (h.flip.insertHead (x := x) (by simpa using hx)).flip
  rw [← insertTail_flip, flip_flip] at hflip
  simpa using hflip

theorem remove_forward (h : Linked list (xs ++ x :: ys)) :
    Path (list.remove x).next (list.remove x).head (xs ++ ys) none := by
  have hx : x ∉ xs ++ ys := (List.nodup_middle.1 h.nodup).notMem
  have hhead : (list.remove x).head = if xs = [] then list.next x else list.head := by
    rw [remove_head, h.head_eq]
    cases xs with
    | nil => simp
    | cons y xs =>
      rw [if_neg, if_neg (List.cons_ne_nil y xs)]
      simp only [List.cons_append, List.head?_cons, Option.some.injEq]
      rintro rfl
      exact hx (List.mem_cons_self ..)
  rw [hhead]
  refine h.forward.unlink h.nodup (fun z hz => ?_) fun v hv hlast => ?_
  · rw [remove_next, h.prev_eq, if_neg, if_pos hz]
    rintro rfl
    exact hx (List.mem_append_left _ (List.mem_of_getLast? hz))
  · rw [remove_next, h.prev_eq, if_neg, if_neg hlast]
    rintro rfl
    exact hx hv

/-- An element of the list is taken out. -/
theorem remove (h : Linked list xs) (hx : x ∈ xs) : Linked (list.remove x) (xs.erase x) := by
  have hnodup := h.nodup.erase x
  obtain ⟨as, bs, _, rfl, herase⟩ := List.exists_erase_eq hx
  have hflip := h.flip
  rw [List.reverse_append, List.reverse_cons, List.append_assoc, List.singleton_append] at hflip
  have hback := hflip.remove_forward
  rw [← remove_flip] at hback
  rw [herase] at hnodup ⊢
  refine ⟨hnodup, h.remove_forward, ?_⟩
  rw [List.reverse_append]
  exact hback

/-! ## Other elements -/

/-- Elements that are not in the list and not inserted stay as they are. -/
theorem insertHead_elems (h : Linked list xs) (hy : y ∉ xs) (hne : y ≠ x) :
    (list.insertHead x).elems y = list.elems y := by
  have hhead : list.head ≠ some y := by
    rw [h.head_eq]
    exact fun he => hy (List.mem_of_head? he)
  refine ListElem.ext ?_ ?_
  · refine (insertHead_prev list x y).trans ?_
    rw [if_neg hhead, if_neg hne]
    rfl
  · refine (insertHead_next list x y).trans ?_
    rw [if_neg hne]
    rfl

theorem insertTail_elems (h : Linked list xs) (hy : y ∉ xs) (hne : y ≠ x) :
    (list.insertTail x).elems y = list.elems y := by
  have hflip := h.flip.insertHead_elems (x := x) (y := y) (by simpa using hy) hne
  rw [← insertTail_flip] at hflip
  exact ListElem.ext (congrArg ListElem.next hflip) (congrArg ListElem.prev hflip)

theorem remove_elems (h : Linked list xs) (hx : x ∈ xs) (hy : y ∉ xs) : (list.remove x).elems y = list.elems y := by
  have hne : y ≠ x := by
    rintro rfl
    exact hy hx
  refine ListElem.ext ?_ ?_
  · refine (remove_prev list x y).trans ?_
    rw [if_neg hne, if_neg fun hn => hy (h.forward.mem_of_next hx hn)]
    rfl
  · refine (remove_next list x y).trans ?_
    rw [if_neg hne, if_neg fun hp => hy (List.mem_reverse.1 (h.backward.mem_of_next (List.mem_reverse.2 hx) hp))]
    rfl

end Linked

/-- A removed element is linked to nothing. -/
theorem remove_elems_self : (list.remove old).elems old = ⟨none, none⟩ :=
  ListElem.ext ((remove_prev list old old).trans (if_pos rfl)) ((remove_next list old old).trans (if_pos rfl))

/-- Removing an element that is linked to nothing, and is not at the ends, changes nothing. -/
theorem remove_unlinked (helem : list.elems old = ⟨none, none⟩) (hhead : list.head ≠ some old)
    (htail : list.tail ≠ some old) : list.remove old = list := by
  have hnext : list.next old = none := by rw [next, helem]
  have hprev : list.prev old = none := by rw [prev, helem]
  refine ext_links (fun y => ?_) (fun y => ?_) ?_ ?_
  · rw [remove_next, hprev, if_neg (by simp : ¬ none = some y)]
    split
    · rename_i hy
      rw [hy, hnext]
    · rfl
  · rw [remove_prev, hnext, if_neg (by simp : ¬ none = some y)]
    split
    · rename_i hy
      rw [hy, hprev]
    · rfl
  · rw [remove_head, if_neg hhead]
  · rw [remove_tail, if_neg htail]

/-! ## The size -/

omit [DecidableEq α] in
/-- The loop counts the rest of the list, in the arithmetic of an int. -/
theorem countFrom_path {list : ThreadInfoList α} : ∀ {xs : List α} {start : Option α} {passes : Nat} {cnt : Int32},
    Path list.next start xs none → xs.length ≤ passes →
      list.countFrom passes start cnt = some (cnt + Int32.ofNat xs.length)
  | [], _, passes, cnt, h, _ => by
    cases h
    cases passes <;> simp [countFrom]
  | x :: xs, _, passes + 1, cnt, ⟨hx, hxs⟩, hle => by
    rw [hx, countFrom, countFrom_path hxs (Nat.le_of_succ_le_succ hle), List.length_cons, Int32.ofNat_add,
      Int32.add_assoc, Int32.add_comm 1]
    rfl

end ThreadInfoList

/-! ## Sequences of operations -/

/-- A call that inserts or removes an element. -/
inductive ListOp (α : Type)
  | insertHead (new : α)
  | insertTail (new : α)
  | remove (old : α)

/-- The sequence that a list stands for, and the elements that were removed from it and are not back. -/
structure Contents (α : Type) where
  items : List α
  removed : List α

/-- The element may not be inserted, as it is in the list, or removed, as it has never been in it. -/
inductive Illegal
  | illegal

variable {α : Type} [DecidableEq α]

namespace Contents

def insert (c : Contents α) (new : α) (items : List α) : Except Illegal (Contents α × Unit) :=
  if new ∈ c.items then .error .illegal else .ok (⟨items, c.removed.filter (· ≠ new)⟩, ())

/-- The abstract sequence: elements are consed, appended and erased. -/
def step (c : Contents α) : ListOp α → Except Illegal (Contents α × Unit)
  | .insertHead new => c.insert new (new :: c.items)
  | .insertTail new => c.insert new (c.items ++ [new])
  | .remove old =>
    if old ∈ c.items then .ok (⟨c.items.erase old, old :: c.removed⟩, ())
    else if old ∈ c.removed then .ok (c, ())
    else .error .illegal

theorem insert_ok {c c' : Contents α} {new : α} {items : List α} {u : Unit} (h : c.insert new items = .ok (c', u)) :
    new ∉ c.items ∧ c' = ⟨items, c.removed.filter (· ≠ new)⟩ := by
  unfold insert at h
  split at h
  · cases h
  · cases h
    exact ⟨‹_›, rfl⟩

end Contents

namespace ThreadInfoList

/-- A call, with what it returns. -/
def step (list : Option (ThreadInfoList α)) : ListOp α → Except Empty (Option (ThreadInfoList α) × Int32)
  | .insertHead new => .ok (listInsertHead list (some new))
  | .insertTail new => .ok (listInsertTail list (some new))
  | .remove old => .ok (listRemove list (some old))

/-- The linked elements are the abstract sequence, and the removed ones are linked to nothing. -/
structure Stands (list : ThreadInfoList α) (c : Contents α) : Prop where
  linked : Linked list c.items
  outside : ∀ x ∈ c.removed, x ∉ c.items
  unlinked : ∀ x ∈ c.removed, list.elems x = ⟨none, none⟩

namespace Stands

variable {list : ThreadInfoList α} {c c' : Contents α} {u : Unit}

omit [DecidableEq α] in
theorem empty (elems : α → ListElem α) : Stands ⟨elems, none, none⟩ ⟨[], []⟩ where
  linked := ⟨List.nodup_nil, rfl, rfl⟩
  outside _ hx := absurd hx List.not_mem_nil
  unlinked _ hx := absurd hx List.not_mem_nil

/-- A new element, at either end. -/
theorem insert (h : Stands list c) {new : α} {items : List α} {list' : ThreadInfoList α}
    (hlinked : Linked list' items) (hmem : ∀ x, x ∈ items → x = new ∨ x ∈ c.items)
    (helems : ∀ x, x ∉ c.items → x ≠ new → list'.elems x = list.elems x) :
    Stands list' ⟨items, c.removed.filter (· ≠ new)⟩ := by
  refine ⟨hlinked, fun x hx hxi => ?_, fun x hx => ?_⟩
  · obtain ⟨hr, hne⟩ := List.mem_filter.1 hx
    rcases hmem x hxi with rfl | hin
    · simp at hne
    · exact h.outside x hr hin
  · obtain ⟨hr, hne⟩ := List.mem_filter.1 hx
    rw [helems x (h.outside x hr) (by simpa using hne)]
    exact h.unlinked x hr

theorem remove (h : Stands list c) {old : α} (hold : old ∈ c.items) :
    Stands (list.remove old) ⟨c.items.erase old, old :: c.removed⟩ := by
  refine ⟨h.linked.remove hold, fun x hx => ?_, fun x hx => ?_⟩
  · rcases List.mem_cons.1 hx with rfl | hr
    · exact h.linked.nodup.not_mem_erase
    · exact fun hin => h.outside x hr (List.mem_of_mem_erase hin)
  · rcases List.mem_cons.1 hx with rfl | hr
    · exact list.remove_elems_self x
    · rw [h.linked.remove_elems hold (h.outside x hr)]
      exact h.unlinked x hr

/-- Removing an element a second time changes nothing. -/
theorem remove_again (h : Stands list c) {old : α} (hold : old ∈ c.removed) : list.remove old = list := by
  have hnot := h.outside old hold
  refine list.remove_unlinked old (h.unlinked old hold) (fun he => hnot ?_) fun he => hnot ?_
  · rw [h.linked.head_eq] at he
    exact List.mem_of_head? he
  · rw [h.linked.tail_eq] at he
    exact List.mem_of_getLast? he

/-- Every legal call does to the linked elements what it does to the sequence. -/
theorem step (h : Stands list c) {op : ListOp α} (hop : c.step op = .ok (c', u)) :
    ∃ list', ThreadInfoList.step (some list) op = .ok (some list', 0) ∧ Stands list' c' := by
  cases op with
  | insertHead new =>
    obtain ⟨hnew, rfl⟩ := Contents.insert_ok hop
    exact ⟨_, rfl, h.insert (h.linked.insertHead hnew) (fun x hx => List.mem_cons.1 hx)
      fun x hx hne => h.linked.insertHead_elems hx hne⟩
  | insertTail new =>
    obtain ⟨hnew, rfl⟩ := Contents.insert_ok hop
    exact ⟨_, rfl, h.insert (h.linked.insertTail hnew) (fun x hx => by simpa [or_comm] using hx)
      fun x hx hne => h.linked.insertTail_elems hx hne⟩
  | remove old =>
    simp only [Contents.step] at hop
    split at hop
    · cases hop
      exact ⟨_, rfl, h.remove ‹_›⟩
    · split at hop
      · cases hop
        exact ⟨list.remove old, rfl, by rw [h.remove_again ‹_›]; exact h⟩
      · cases hop

end Stands

/-- Every legal sequence of calls. -/
theorem run_stands (elems : α → ListElem α) {ops : List (ListOp α)} {c : Contents α} {us : List Unit}
    (h : run Contents.step ⟨[], []⟩ ops = .ok (c, us)) :
    ∃ list codes, run step (some ⟨elems, none, none⟩) ops = .ok (some list, codes) ∧ (∀ r ∈ codes, r = 0) ∧
      Stands list c := by
  refine run_history (P := fun ops _ c => ∃ list codes,
    run step (some ⟨elems, none, none⟩) ops = .ok (some list, codes) ∧ (∀ r ∈ codes, r = 0) ∧ Stands list c) (fun pre us c op c' u hpre _ hop => ?_)
    ⟨_, [], rfl, by simp, Stands.empty elems⟩ (along_true _ _ _) h
  obtain ⟨list, codes, hrun, hcodes, hs⟩ := hpre
  obtain ⟨list', hstep, hs'⟩ := hs.step hop
  refine ⟨list', codes ++ [0], run_concat hrun hstep, ?_, hs'⟩
  intro r hr
  rcases List.mem_append.1 hr with hr | hr
  · exact hcodes r hr
  · exact List.mem_singleton.1 hr

/-- The list is the abstract sequence: in both directions, in the count of its elements as long as that is
an int, and in that removing an element a second time changes nothing. -/
structure Faithful (list : ThreadInfoList α) (c : Contents α) : Prop where
  ends : list.head = none ↔ list.tail = none
  forward : Path list.next list.head c.items none
  backward : Path list.prev list.tail c.items.reverse none
  size : ∀ passes, c.items.length ≤ passes → ∃ cnt, listSize passes (some list) = some cnt ∧
    (c.items.length < 2 ^ 31 → cnt.toInt = c.items.length)
  again : ∀ x ∈ c.removed, listRemove (some list) (some x) = (some list, 0)

omit [DecidableEq α] in
theorem Linked.listSize {list : ThreadInfoList α} {xs : List α} (h : Linked list xs) {passes : Nat}
    (hle : xs.length ≤ passes) : listSize passes (some list) = some (Int32.ofNat xs.length) := by
  rw [ThreadInfoList.listSize, countFrom_path h.forward hle, Int32.zero_add]

/-- For every sequence of insertions of elements that are not in the list and removals of ones that are or
have been, from the empty list and whatever is in the memory of the elements: all calls return 0, and the
list is the sequence of the elements consed, appended and erased. -/
theorem list_faithful (elems : α → ListElem α) {ops : List (ListOp α)} {c : Contents α} {us : List Unit}
    (h : run Contents.step ⟨[], []⟩ ops = .ok (c, us)) :
    ∃ list codes, run step (some ⟨elems, none, none⟩) ops = .ok (some list, codes) ∧ (∀ r ∈ codes, r = 0) ∧
      Faithful list c := by
  obtain ⟨list, codes, hrun, hcodes, hs⟩ := run_stands elems h
  refine ⟨list, codes, hrun, hcodes, ?_, hs.linked.forward, hs.linked.backward, fun passes hle => ?_, fun x hx => ?_⟩
  · rw [hs.linked.head_eq, hs.linked.tail_eq, List.head?_eq_none_iff, List.getLast?_eq_none_iff]
  · exact ⟨_, hs.linked.listSize hle, fun hlt => Int32.toInt_ofNat_of_lt hlt⟩
  · rw [listRemove, hs.remove_again hx]

/-- Three elements, one of them removed twice. -/
theorem list_faithful_three : ∃ list codes,
    run step (some (⟨fun _ => ⟨some 7, some 7⟩, none, none⟩ : ThreadInfoList Nat))
      [.insertTail 1, .insertHead 0, .insertTail 2, .remove 1, .remove 1] = .ok (some list, codes) ∧
    (∀ r ∈ codes, r = 0) ∧ Faithful list ⟨[0, 2], [1]⟩ :=
  list_faithful _ (show run Contents.step ⟨[], []⟩ [.insertTail 1, .insertHead 0, .insertTail 2, .remove 1, .remove 1] =
    .ok (⟨[0, 2], [1]⟩, [(), (), (), (), ()]) from rfl)

/-- The elements `0` to `n - 1`, one behind the other. -/
theorem run_insertTail_range : ∀ n : Nat, ∃ us, run Contents.step ⟨[], []⟩ ((List.range n).map .insertTail) =
    .ok (⟨List.range n, []⟩, us)
  | 0 => ⟨[], rfl⟩
  | n + 1 => by
    obtain ⟨us, hrun⟩ := run_insertTail_range n
    rw [List.range_succ, List.map_append]
    refine ⟨us ++ [()], run_concat hrun ?_⟩
    simp [Contents.step, Contents.insert]

/-- A list of any length, and its size in the arithmetic of an int. -/
theorem exists_listSize (n : Nat) : ∃ (ops : List (ListOp Nat)) (c : Contents Nat) (us : List Unit)
    (list : ThreadInfoList Nat) (codes : List Int32), run Contents.step ⟨[], []⟩ ops = .ok (c, us) ∧
      run step (some ⟨fun _ => ⟨none, none⟩, none, none⟩) ops = .ok (some list, codes) ∧ c.items.length = n ∧
      ∀ passes, n ≤ passes → listSize passes (some list) = some (Int32.ofNat n) := by
  obtain ⟨us, hrun⟩ := run_insertTail_range n
  obtain ⟨list, codes, hlist, _, hs⟩ := run_stands (fun _ => ⟨none, none⟩) hrun
  have hlen : (List.range n).length = n := List.length_range
  refine ⟨_, _, us, list, codes, hrun, hlist, hlen, fun passes hle => ?_⟩
  rw [hs.linked.listSize (hlen.trans_le hle), hlen]

/-- At 2147483648 elements the int is negative. -/
theorem listSize_negative : ∃ (ops : List (ListOp Nat)) (c : Contents Nat) (us : List Unit)
    (list : ThreadInfoList Nat) (codes : List Int32), run Contents.step ⟨[], []⟩ ops = .ok (c, us) ∧
      run step (some ⟨fun _ => ⟨none, none⟩, none, none⟩) ops = .ok (some list, codes) ∧
      c.items.length = 2147483648 ∧
      ∀ passes, 2147483648 ≤ passes → listSize passes (some list) = some (-2147483648) := by
  obtain ⟨ops, c, us, list, codes, hops, hrun, hlen, hsize⟩ := exists_listSize 2147483648
  refine ⟨ops, c, us, list, codes, hops, hrun, hlen, fun passes hle => ?_⟩
  rw [hsize passes hle, show Int32.ofNat 2147483648 = -2147483648 by decide]

end ThreadInfoList

/-! ## The queue of the scheduler -/

namespace Scheduler

variable {n : Nat}

/-- The calls that a step of the scheduler makes, with the workers as elements. -/
def listCalls (s : Scheduler n) : Action n → List (ListOp (Fin n))
  | .handler _ =>
    match s.handler with
    | .requeueRemove w | .leave w => [.remove w]
    | .requeueInsert w => [.insertTail w]
    | _ => []
  | .enter w => [.insertTail w]
  | _ => []

theorem run_remove {c : Contents α} {old : α} (h : old ∈ c.items) :
    run Contents.step c [.remove old] = .ok (⟨c.items.erase old, old :: c.removed⟩, [()]) := by
  rw [run_cons, Contents.step, if_pos h]
  rfl

theorem run_insertTail {c : Contents α} {new : α} (h : new ∉ c.items) :
    run Contents.step c [.insertTail new] = .ok (⟨c.items ++ [new], c.removed.filter (· ≠ new)⟩, [()]) := by
  rw [run_cons, Contents.step, Contents.insert, if_neg h]
  rfl

/-- The calls are legal, and do to the sequence what the step does to the queue. -/
theorem listCalls_legal {s s' : Scheduler n} {a : Action n} {es : List (Event n)} (h : Control s) (hm : Move s a s' es)
    {c : Contents (Fin n)} (hc : c.items = s.schedQueue) :
    ∃ c' us, run Contents.step c (s.listCalls a) = .ok (c', us) ∧ c'.items = s'.schedQueue := by
  cases hm with
  | @remove _ w hh =>
    have hmem : w ∈ c.items := by
      rw [hc]
      exact (h.member w).2 (.inl ⟨h.moving w (.inl hh), by rw [hh]; simp⟩)
    refine ⟨_, _, by rw [listCalls, hh]; exact run_remove hmem, ?_⟩
    rw [hc]
    rfl
  | @leave _ w hh =>
    have hmem : w ∈ c.items := by
      rw [hc]
      exact (h.member w).2 (.inr (.inr hh))
    refine ⟨_, _, by rw [listCalls, hh]; exact run_remove hmem, ?_⟩
    rw [hc]
    rfl
  | insert hh =>
    refine ⟨_, _, by rw [listCalls, hh]; exact run_insertTail (hc ▸ h.notMem_of_requeueInsert hh), ?_⟩
    rw [hc]
    rfl
  | enter hw =>
    refine ⟨_, _, run_insertTail (hc ▸ h.notMem_of_entering hw), ?_⟩
    rw [hc]
    rfl
  | signal hh | totals hh | finish hh _ | resume hh _ _ | waitQueue hh _ _ =>
    exact ⟨c, [], by rw [listCalls, hh]; rfl, hc⟩
  | _ => exact ⟨c, [], rfl, hc⟩

/-- In every run of the scheduler the calls it makes keep its queue as a doubly linked list. -/
theorem run_linked (elems : Fin n → ListElem (Fin n)) {queueSize : Nat} {info : Fin n → ThreadInfo}
    {actions : List (Action n)} {s : Scheduler n} {outs : List (List (Event n))}
    (h : run step (initial queueSize info) actions = .ok (s, outs)) :
    ∃ list codes, run ThreadInfoList.step (some ⟨elems, none, none⟩)
        (gather step listCalls (initial queueSize info) actions) = .ok (some list, codes) ∧
      (∀ r ∈ codes, r = 0) ∧ ThreadInfoList.Linked list s.schedQueue := by
  have hlegal : Control s ∧ ∃ c us, run Contents.step ⟨[], []⟩
      (gather step listCalls (initial queueSize info) actions) = .ok (c, us) ∧ c.items = s.schedQueue := by
    refine run_history_reached (P := fun actions _ s => Control s ∧ ∃ c us, run Contents.step ⟨[], []⟩
      (gather step listCalls (initial queueSize info) actions) = .ok (c, us) ∧ c.items = s.schedQueue)
      (fun pre os s a s' es hrun hpre hstep => ?_) ⟨Control.initial queueSize info, _, _, rfl, rfl⟩ h
    obtain ⟨hcontrol, c, us, hcalls, hc⟩ := hpre
    have hm := move_of_step hstep
    obtain ⟨c', us', hcalls', hc'⟩ := listCalls_legal hcontrol hm hc
    refine ⟨hcontrol.move hm, c', us ++ us', ?_, hc'⟩
    rw [gather_concat hrun]
    exact run_append.2 ⟨c, us, us', hcalls, hcalls', rfl⟩
  obtain ⟨_, c, us, hcalls, hc⟩ := hlegal
  obtain ⟨list, codes, hrun, hcodes, hs⟩ := ThreadInfoList.run_stands elems hcalls
  exact ⟨list, codes, hrun, hcodes, hc ▸ hs.linked⟩

end Scheduler

end UnixSysProg.Sched
