/-
# Bounded channels with waiting senders

A channel has a buffer of bounded length and the senders that wait because the buffer is
full.  A receive from a full buffer makes room, and the sender that has waited longest
moves its value into the buffer in the same operation.

* `send` puts the value into the buffer or makes the sender wait;
* `trySend` and `recv` are the operations that never wait;
* `contents` is the queue the channel stands for: what is buffered, then what waits.
  A send appends to it and a receive takes its head, whether or not senders wait.
-/
import Mathlib.Data.List.Basic
import Mathlib.Order.Basic
import Mathlib.Order.Nat

/-- A channel with room for `n` values.  Senders wait only while the buffer is full. -/
structure Channel (α : Type*) (n : ℕ) where
  buf : List α
  waiting : List α
  fits : buf.length ≤ n
  full : waiting ≠ [] → buf.length = n

namespace Channel

variable {α : Type*} {n : ℕ}

/-- The channel at its creation. -/
def empty : Channel α n := ⟨[], [], n.zero_le, fun h => absurd rfl h⟩

/-- A send: the value is buffered, or its sender waits. -/
def send (c : Channel α n) (v : α) : Channel α n :=
  if h : c.buf.length < n then
    ⟨c.buf ++ [v], c.waiting, by rw [List.length_append]; exact h,
      fun hw => absurd (c.full hw) h.ne⟩
  else ⟨c.buf, c.waiting ++ [v], c.fits, fun _ => le_antisymm c.fits (not_lt.mp h)⟩

/-- A send that gives up when the buffer is full. -/
def trySend (c : Channel α n) (v : α) : Option (Channel α n) :=
  if c.buf.length < n then some (c.send v) else none

/-- A receive that gives up when there is nothing to receive. -/
def recv (c : Channel α n) : Option (α × Channel α n) :=
  match c with
  | ⟨[], [], _, _⟩ => none
  -- no buffer at all: the value passes from hand to hand
  | ⟨[], w :: waiting, hfits, hfull⟩ => some (w, ⟨[], waiting, hfits, fun _ => hfull (by simp)⟩)
  | ⟨v :: buf, [], hfits, _⟩ =>
    some (v, ⟨buf, [], (Nat.le_succ _).trans hfits, fun h => absurd rfl h⟩)
  | ⟨v :: buf, w :: waiting, hfits, hfull⟩ =>
    some (v, ⟨buf ++ [w], waiting, by rw [List.length_append]; exact hfits,
      fun _ => by rw [List.length_append]; exact hfull (by simp)⟩)

/-- The queue that the channel stands for. -/
def contents (c : Channel α n) : List α := c.buf ++ c.waiting

@[simp] theorem contents_empty : (empty : Channel α n).contents = [] := rfl

/-- Nobody waits while there is room. -/
theorem waiting_of_lt {c : Channel α n} (h : c.buf.length < n) : c.waiting = [] := by
  by_contra hw
  exact h.ne (c.full hw)

/-- A send appends to the queue. -/
@[simp] theorem contents_send (c : Channel α n) (v : α) :
    (c.send v).contents = c.contents ++ [v] := by
  unfold send contents
  split
  · next h => simp [waiting_of_lt h]
  · simp

/-- A sender waits exactly when it finds the buffer full. -/
theorem waiting_send (c : Channel α n) (v : α) :
    (c.send v).waiting = if c.buf.length < n then c.waiting else c.waiting ++ [v] := by
  unfold send
  split <;> rfl

/-- A send goes through if there is room. -/
theorem trySend_eq_some {c d : Channel α n} {v : α} :
    c.trySend v = some d ↔ c.buf.length < n ∧ c.send v = d := by
  unfold trySend
  split
  · next h => simp [h]
  · next h => simp [h]

theorem trySend_eq_none {c : Channel α n} {v : α} :
    c.trySend v = none ↔ n ≤ c.buf.length := by
  unfold trySend
  split
  · next h => simpa using h
  · next h => simpa using h

/-- Only an empty channel has nothing to receive. -/
theorem recv_eq_none {c : Channel α n} : c.recv = none ↔ c.contents = [] := by
  obtain ⟨_ | ⟨v, buf⟩, _ | ⟨w, waiting⟩, hfits, hfull⟩ := c <;> simp [recv, contents]

/-- A receive takes the head of the queue. -/
theorem contents_recv {c d : Channel α n} {v : α} (h : c.recv = some (v, d)) :
    c.contents = v :: d.contents := by
  obtain ⟨_ | ⟨u, buf⟩, _ | ⟨w, waiting⟩, hfits, hfull⟩ := c
  all_goals
    simp only [recv, reduceCtorEq, Option.some.injEq, Prod.mk.injEq] at h
  all_goals
    obtain ⟨rfl, rfl⟩ := h
    simp [contents]

/-- A receive lets the first waiting sender go on. -/
theorem waiting_recv {c d : Channel α n} {v : α} (h : c.recv = some (v, d)) :
    d.waiting = c.waiting.tail := by
  obtain ⟨_ | ⟨u, buf⟩, _ | ⟨w, waiting⟩, hfits, hfull⟩ := c
  all_goals
    simp only [recv, reduceCtorEq, Option.some.injEq, Prod.mk.injEq] at h
  all_goals
    obtain ⟨rfl, rfl⟩ := h
    rfl

/-- What waits comes after what is buffered. -/
theorem drop_contents (c : Channel α n) : c.contents.drop c.buf.length = c.waiting :=
  List.drop_left

theorem take_contents (c : Channel α n) : c.contents.take c.buf.length = c.buf :=
  List.take_left

theorem length_buf_le (c : Channel α n) : c.buf.length ≤ c.contents.length := by
  rw [contents, List.length_append]
  exact Nat.le_add_right _ _

end Channel
